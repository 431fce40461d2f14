import Attribution.Diagnostic
/-!
# Instructions

The bodies of scripted units. Cells and units go by names, which are looked up
when an instruction is carried out. Every body has an accumulator, a 64-bit
word that starts at zero.
-/

namespace Attribution.Script

inductive Instr where
  -- declarations
  | cell (name : String) (fallback sentinel : Int64)
  | unit (name : String) (phase : Option Nat) (body : List Instr)
  | rule (cell name : String) (phase : Option Nat) (body : List Instr)
  | resolver (cell unit : String)
  | handler (cell tag : String) (target : Option String)
  -- evaluation
  | get (cell : String)
  | probe (cell : String)
  | attempt (unit : String)
  | fill (cell : String) (value : Int64)
  | put (cell : String)
  | fail (diagnostic : Diagnostic)
  | report (diagnostic : Diagnostic)
  -- maintenance of cells
  | update (cell : String) (value : Int64)
  | soft (cell : String) (value : Int64)
  | reset (cell : String)
  -- observation
  | value (cell : String)
  | cached (cell : String)
  | cellInfo (cell : String)
  | resolverOf (cell : String)
  | unitInfo (unit : String)
  | status (unit : String)
  | pending (phase : Nat)
  | depth
  | limit
  | current
  | debugCell (cell : String)
  | debugUnit (unit : String)
  | dump
  | acc
  -- control
  | set (value : Int64)
  | add (value : Int64)
  | mul (value : Int64)
  | log (instr : Instr)
  | onRun (run : Int) (body : List Instr)
  | rescue (body : List Instr)
  | throw (text : String)
  | crash
  | meet (name : String) (count : Nat)
  | pause

end Attribution.Script
