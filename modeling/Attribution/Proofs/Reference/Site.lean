import Attribution.Proofs.Reference.Flow
/-!
# Sites and nodes

The nodes of a tree in preorder are the nodes of its outline with their sites:
what the tree stores about node `id` can be read off the site of that number
(`node?_of_mem`, `jump?_of_mem`). A site is the root's or stands among the sites
of its parent's children (`mem_childSites_or_root`), and the sites of children
belong to the tree (`mem_sites_of_mem_childSites`).
-/

namespace Attribution

namespace Outline

variable (κ : NodeId → Option Const) (s : Subject)

def offspring (p : Site) (o : Outline) : List (Site × Outline) :=
  childSites κ s p o 0 (p.id + 1) none o.children

def nodeAt (x : Site × Outline) : Node :=
  ⟨x.2.kind, childIds (x.1.id + 1) x.2.children, x.1.parent, x.1.index, x.2.location⟩

def partAt (x : Site × Outline) : Part :=
  ⟨x.1.id, x.2.kind, x.2.flow κ s x.1⟩

variable {κ s}

theorem size_pos (o : Outline) : 0 < o.size := by
  obtain ⟨kind, location, children⟩ := o
  rw [size]
  omega

theorem parts_eq_map (p : Site) (o : Outline) (cs : List Outline) :
    ∀ index id before, parts κ s p o index id before cs =
      (childSites κ s p o index id before cs).map (partAt κ s) := by
  induction cs with
  | nil =>
    intro index id before
    rw [parts, childSites]
    rfl
  | cons c rest ih =>
    intro index id before
    rw [parts, childSites, List.map_cons, ih]
    rfl

theorem flow_eq (p : Site) (o : Outline) :
    o.flow κ s p = .ofParts κ s p o.kind ((o.offspring κ s p).map (partAt κ s)) := by
  obtain ⟨kind, location, children⟩ := o
  rw [flow, parts_eq_map]
  rfl

theorem sitesAll_eq_flatMap (p : Site) (o : Outline) (cs : List Outline) :
    ∀ index id before, sitesAll κ s p o index id before cs =
      (childSites κ s p o index id before cs).flatMap fun x => x.2.sites κ s x.1 := by
  induction cs with
  | nil =>
    intro index id before
    rw [sitesAll, childSites]
    rfl
  | cons c rest ih =>
    intro index id before
    rw [sitesAll, childSites, List.flatMap_cons, ih]

theorem sites_eq (p : Site) (o : Outline) :
    o.sites κ s p = (p, o) :: (o.offspring κ s p).flatMap fun x => x.2.sites κ s x.1 := by
  obtain ⟨kind, location, children⟩ := o
  rw [sites, sitesAll_eq_flatMap]
  rfl

theorem self_mem_sites (p : Site) (o : Outline) : (p, o) ∈ o.sites κ s p := by
  rw [sites_eq]
  exact List.mem_cons_self

/-! ## Numbers -/

theorem le_of_mem_childIds {cs : List Outline} : ∀ {id n : Nat}, n ∈ childIds id cs → id ≤ n := by
  induction cs with
  | nil =>
    intro id n h
    cases h
  | cons c rest ih =>
    intro id n h
    rw [childIds] at h
    rcases List.mem_cons.1 h with rfl | h
    · exact Nat.le_refl _
    · have hle := ih h
      exact Nat.le_trans (Nat.le_add_right id c.size) hle

mutual

theorem ids_sites (p : Site) : ∀ o : Outline,
    (o.sites κ s p).map (fun x => x.1.id) = List.range' p.id o.size
  | .mk kind location children => by
    rw [sites, List.map_cons, ids_sitesAll, size, List.range'_succ]

theorem ids_sitesAll (p : Site) (o : Outline) : ∀ (cs : List Outline) (index id : Nat)
    (before : Option (Site × Flow)),
    (sitesAll κ s p o index id before cs).map (fun x => x.1.id) = List.range' id (sizeAll cs)
  | [], index, id, before => by
    rw [sitesAll, sizeAll]
    rfl
  | c :: rest, index, id, before => by
    rw [sitesAll, List.map_append, ids_sites, ids_sitesAll, sizeAll]
    exact List.range'_append_1

end

theorem length_sites (p : Site) (o : Outline) : (o.sites κ s p).length = o.size := by
  have h := congrArg List.length (ids_sites (κ := κ) (s := s) p o)
  rw [List.length_map, List.length_range'] at h
  exact h

theorem getElem?_sites {p : Site} {o : Outline} {x : Site × Outline} (hx : x ∈ o.sites κ s p) :
    p.id ≤ x.1.id ∧ (o.sites κ s p)[x.1.id - p.id]? = some x := by
  obtain ⟨j, hj⟩ := List.mem_iff_getElem?.1 hx
  have hlt : j < o.size := by
    rw [← length_sites (κ := κ) (s := s) p o]
    exact (List.getElem?_eq_some_iff.1 hj).1
  have hid : ((o.sites κ s p).map fun x => x.1.id)[j]? = some x.1.id := by
    rw [List.getElem?_map, hj]
    rfl
  rw [ids_sites, List.getElem?_range' hlt] at hid
  have heq : p.id + 1 * j = x.1.id := Option.some.inj hid
  refine ⟨by omega, ?_⟩
  rw [show x.1.id - p.id = j by omega]
  exact hj

theorem id_lt_of_mem {p : Site} {o : Outline} {x : Site × Outline} (hx : x ∈ o.sites κ s p) :
    x.1.id < p.id + o.size := by
  obtain ⟨hle, hget⟩ := getElem?_sites hx
  have hlt := (List.getElem?_eq_some_iff.1 hget).1
  rw [length_sites] at hlt
  omega

theorem exists_of_id {p : Site} {o : Outline} {id : Nat} (hle : p.id ≤ id)
    (hlt : id < p.id + o.size) : ∃ x ∈ o.sites κ s p, x.1.id = id := by
  have hj : id - p.id < (o.sites κ s p).length := by
    rw [length_sites]
    omega
  refine ⟨(o.sites κ s p)[id - p.id], List.getElem_mem hj, ?_⟩
  have hget := List.getElem_map (fun x : Site × Outline => x.1.id) (l := o.sites κ s p)
    (i := id - p.id) (h := by rw [List.length_map]; exact hj)
  rw [← hget]
  simp only [ids_sites, List.getElem_range']
  omega

/-! ## Parents and children -/

mutual

theorem sites_subset {p q : Site} {c : Outline} : ∀ o : Outline,
    (q, c) ∈ o.sites κ s p → c.sites κ s q ⊆ o.sites κ s p
  | .mk kind location children, h => by
    rw [sites] at h
    rcases List.mem_cons.1 h with h | h
    · obtain ⟨rfl, rfl⟩ := Prod.mk.inj h
      exact fun _ hx => hx
    · intro x hx
      rw [sites]
      exact List.mem_cons_of_mem _ (sitesAll_subset children h hx)

theorem sitesAll_subset {p q : Site} {c o : Outline} : ∀ (cs : List Outline) {index id : Nat}
    {before : Option (Site × Flow)}, (q, c) ∈ sitesAll κ s p o index id before cs →
    c.sites κ s q ⊆ sitesAll κ s p o index id before cs
  | [], _, _, _, h => by
    rw [sitesAll] at h
    cases h
  | d :: rest, index, id, before, h => by
    rw [sitesAll] at h
    intro x hx
    rw [sitesAll]
    rcases List.mem_append.1 h with h | h
    · exact List.mem_append_left _ (sites_subset d h hx)
    · exact List.mem_append_right _ (sitesAll_subset rest h hx)

end

theorem mem_sites_of_mem_offspring {p q : Site} {o c : Outline} {x : Site × Outline}
    (h : (q, c) ∈ o.sites κ s p) (hx : x ∈ c.offspring κ s q) : x ∈ o.sites κ s p := by
  apply sites_subset o h
  rw [sites_eq]
  exact List.mem_cons_of_mem _ (List.mem_flatMap.2 ⟨x, hx, self_mem_sites x.1 x.2⟩)

mutual

/-- A site is the root's, or among the children of another. -/
theorem eq_root_or_mem_offspring {p : Site} {x : Site × Outline} : ∀ o : Outline,
    x ∈ o.sites κ s p → x = (p, o) ∨ ∃ y ∈ o.sites κ s p, x ∈ y.2.offspring κ s y.1
  | .mk kind location children, h => by
    rw [sites] at h
    rcases List.mem_cons.1 h with h | h
    · exact .inl h
    · rcases mem_childSites_or_mem_offspring children h with hx | ⟨y, hy, hx⟩
      · exact .inr ⟨_, self_mem_sites _ _, hx⟩
      · refine .inr ⟨y, ?_, hx⟩
        rw [sites]
        exact List.mem_cons_of_mem _ hy

theorem mem_childSites_or_mem_offspring {p : Site} {o : Outline} {x : Site × Outline} :
    ∀ (cs : List Outline) {index id : Nat} {before : Option (Site × Flow)},
    x ∈ sitesAll κ s p o index id before cs →
    x ∈ childSites κ s p o index id before cs ∨
      ∃ y ∈ sitesAll κ s p o index id before cs, x ∈ y.2.offspring κ s y.1
  | [], _, _, _, h => by
    rw [sitesAll] at h
    cases h
  | d :: rest, index, id, before, h => by
    rw [sitesAll] at h ⊢
    rw [childSites]
    rcases List.mem_append.1 h with h | h
    · rcases eq_root_or_mem_offspring d h with rfl | ⟨y, hy, hx⟩
      · exact .inl List.mem_cons_self
      · exact .inr ⟨y, List.mem_append_left _ hy, hx⟩
    · rcases mem_childSites_or_mem_offspring rest h with hx | ⟨y, hy, hx⟩
      · exact .inl (List.mem_cons_of_mem _ hx)
      · exact .inr ⟨y, List.mem_append_right _ hy, hx⟩

end

section Children

variable {p : Site} {o : Outline}

theorem map_snd_childSites (cs : List Outline) : ∀ index id before,
    (childSites κ s p o index id before cs).map Prod.snd = cs := by
  induction cs with
  | nil =>
    intro index id before
    rfl
  | cons c rest ih =>
    intro index id before
    rw [childSites, List.map_cons, ih]

theorem map_id_childSites (cs : List Outline) : ∀ index id before,
    (childSites κ s p o index id before cs).map (fun x => x.1.id) = childIds id cs := by
  induction cs with
  | nil =>
    intro index id before
    rfl
  | cons c rest ih =>
    intro index id before
    rw [childSites, List.map_cons, ih, childIds]
    rfl

/-- The child at a position is computed from the one to its left. -/
theorem childSites_get {x : Site × Outline} (cs : List Outline) : ∀ {index id i : Nat}
    {before : Option (Site × Flow)}, (childSites κ s p o index id before cs)[i]? = some x →
    ∃ b, x.1 = p.child κ o (index + i) x.1.id b x.2.kind ∧
      (i = 0 → b = before ∧ x.1.id = id) ∧
      ∀ j, i = j + 1 → ∃ y, (childSites κ s p o index id before cs)[j]? = some y ∧
        b = some (y.1, y.2.flow κ s y.1) ∧ x.1.id = y.1.id + y.2.size := by
  induction cs with
  | nil =>
    intro index id i before h
    cases h
  | cons c rest ih =>
    intro index id i before h
    rw [childSites] at h ⊢
    cases i with
    | zero =>
      obtain rfl := Option.some.inj h
      exact ⟨before, rfl, fun _ => ⟨rfl, rfl⟩, fun _ hj => by omega⟩
    | succ i =>
      rw [List.getElem?_cons_succ] at h
      obtain ⟨b, hx, hzero, hsucc⟩ := ih h
      refine ⟨b, ?_, fun hi => by omega, fun j hj => ?_⟩
      · rw [show index + (i + 1) = index + 1 + i by omega]
        exact hx
      · obtain rfl : i = j := by omega
        cases i with
        | zero =>
          obtain ⟨rfl, hid⟩ := hzero rfl
          exact ⟨_, rfl, rfl, hid⟩
        | succ i =>
          rw [List.getElem?_cons_succ]
          exact hsucc i rfl

theorem of_mem_offspring {x : Site × Outline} {i : Nat}
    (h : (o.offspring κ s p)[i]? = some x) :
    x.1.parent = some p.id ∧ x.1.index = i ∧ x.1.scopes = o.scopesWithin p.scopes p.id ∧
      x.1.label = o.kind.labels? ∧ p.id < x.1.id := by
  obtain ⟨b, hx, hzero, hsucc⟩ := childSites_get o.children h
  refine ⟨?_, ?_, ?_, ?_, ?_⟩
  · rw [hx]
    rfl
  · rw [hx]
    exact Nat.zero_add i
  · rw [hx]
    rfl
  · rw [hx]
    rfl
  · have hid : (childIds (p.id + 1) o.children)[i]? = some x.1.id := by
      rw [← map_id_childSites (κ := κ) (s := s) (p := p) (o := o) o.children 0 (p.id + 1) none,
        List.getElem?_map]
      exact congrArg (Option.map _) h
    exact le_of_mem_childIds (List.mem_of_getElem? hid)

end Children

/-! ## What the tree stores -/

mutual

theorem nodes_eq_map (p : Site) : ∀ o : Outline,
    o.nodes p.parent p.index p.id = (o.sites κ s p).map nodeAt
  | .mk kind location children => by
    rw [nodes, sites, List.map_cons,
      nodesAll_eq_map p (.mk kind location children) children 0 (p.id + 1) none]
    rfl

theorem nodesAll_eq_map (p : Site) (o : Outline) : ∀ (cs : List Outline) (index id : Nat)
    (before : Option (Site × Flow)),
    nodesAll p.id index id cs = (sitesAll κ s p o index id before cs).map nodeAt
  | [], _, _, _ => by
    rw [nodesAll, sitesAll]
    rfl
  | c :: rest, index, id, before => by
    rw [nodesAll, sitesAll, List.map_append, ← nodes_eq_map, ← nodesAll_eq_map p o rest]
    rfl

end

mutual

theorem jumps_eq_map (p : Site) : ∀ o : Outline,
    o.jumps p.scopes p.id = (o.sites κ s p).map fun x => resolveJump x.1.scopes x.2.kind
  | .mk kind location children => by
    rw [jumps, sites, List.map_cons,
      jumpsAll_eq_map p (.mk kind location children) children 0 (p.id + 1) none]
    rfl

theorem jumpsAll_eq_map (p : Site) (o : Outline) : ∀ (cs : List Outline) (index id : Nat)
    (before : Option (Site × Flow)),
    jumpsAll (o.scopesWithin p.scopes p.id) id cs =
      (sitesAll κ s p o index id before cs).map fun x => resolveJump x.1.scopes x.2.kind
  | [], _, _, _ => by
    rw [jumpsAll, sitesAll]
    rfl
  | c :: rest, index, id, before => by
    rw [jumpsAll, sitesAll, List.map_append, ← jumps_eq_map, ← jumpsAll_eq_map p o rest]
    rfl

end

def root : Site :=
  { id := 0 }

end Outline

namespace Tree

variable {κ : NodeId → Option Const} {s : Subject} {o : Outline} {x : Site × Outline}

theorem size_ofOutline (o : Outline) : (ofOutline o).size = o.size := by
  have h := congrArg List.length
    (Outline.nodes_eq_map (κ := fun _ => none) (s := ⟨ofOutline o, ({} : Rules)⟩) Outline.root o)
  rw [List.length_map, Outline.length_sites] at h
  exact h

theorem getElem?_sites_root (hx : x ∈ o.sites κ s Outline.root) :
    (o.sites κ s Outline.root)[x.1.id]? = some x :=
  (Outline.getElem?_sites hx).2

theorem node?_of_mem (hx : x ∈ o.sites κ s Outline.root) :
    (ofOutline o).node? x.1.id = some (Outline.nodeAt x) := by
  have h : (o.nodes none 0 0)[x.1.id]? = some (Outline.nodeAt x) := by
    have heq := Outline.nodes_eq_map (κ := κ) (s := s) Outline.root o
    rw [show o.nodes none 0 0 = _ from heq, List.getElem?_map, getElem?_sites_root hx]
    rfl
  rw [node?, ofOutline]
  simpa using h

theorem jump?_of_mem (hx : x ∈ o.sites κ s Outline.root) :
    (ofOutline o).jump? x.1.id = resolveJump x.1.scopes x.2.kind := by
  have h : (o.jumps [] 0)[x.1.id]? = some (resolveJump x.1.scopes x.2.kind) := by
    have heq := Outline.jumps_eq_map (κ := κ) (s := s) Outline.root o
    rw [show o.jumps [] 0 = _ from heq, List.getElem?_map, getElem?_sites_root hx]
    rfl
  rw [jump?, ofOutline]
  simp [h]

theorem exists_site (κ : NodeId → Option Const) (s : Subject) {id : Nat}
    (h : id < (ofOutline o).size) : ∃ x ∈ o.sites κ s Outline.root, x.1.id = id := by
  rw [size_ofOutline] at h
  exact Outline.exists_of_id (Nat.zero_le id) (by simpa [Outline.root] using h)

theorem id_lt_size (hx : x ∈ o.sites κ s Outline.root) : x.1.id < (ofOutline o).size := by
  have h := Outline.id_lt_of_mem hx
  rw [size_ofOutline]
  simpa [Outline.root] using h

theorem exists_site_of_node? (κ : NodeId → Option Const) (s : Subject) {id : Nat} {n : Node}
    (h : (ofOutline o).node? id = some n) :
    ∃ x ∈ o.sites κ s Outline.root, x.1.id = id ∧ n = Outline.nodeAt x := by
  have hlt : id < (ofOutline o).size := by
    rw [node?] at h
    exact (Array.getElem?_eq_some_iff.1 h).1
  obtain ⟨x, hx, rfl⟩ := exists_site κ s hlt
  rw [node?_of_mem hx] at h
  exact ⟨x, hx, rfl, (Option.some.inj h).symm⟩

end Tree

end Attribution
