import Jack.Environment
import Jack.Instruction.Printer

/-!
# Sinks

A sink takes the instructions of a class one by one and may refuse one, with a reason; then nothing
more is written to it. A sink that cares also hears which class and subroutine come next.
-/

namespace Jack

/-- What compilation has arrived at. -/
inductive Remark
  | beginClass (name : String)
  | beginSubroutine (kind : Subroutine.Kind) (name : String)
  deriving DecidableEq, Repr

class Sink (σ : Type) where
  /-- Takes an instruction; a reason tells that it was refused. -/
  write : σ → Instruction → σ × Option String
  note : σ → Remark → σ := fun sink _ => sink

namespace Sink

variable {σ : Type} [Sink σ]

/-- Writes until an instruction is refused. -/
def writeAll (sink : σ) : List Instruction → σ × Option String
  | [] => (sink, none)
  | i :: rest =>
    match write sink i with
    | (sink, none) => writeAll sink rest
    | (sink, some reason) => (sink, some reason)

end Sink

/-- Keeps instructions, at most as many as its capacity. -/
structure Collector where
  items : Array Instruction := #[]
  capacity : Option Nat := none

namespace Collector

instance : Sink Collector where
  write collector i :=
    if collector.capacity.any (· ≤ collector.items.size) then (collector, some "sink is full")
    else ({ collector with items := collector.items.push i }, none)

end Collector

/-- Keeps the bytes of the lines written, at most as many as its capacity: a line that does not
fit is cut where the room ends. -/
structure ByteCollector where
  bytes : ByteArray := .empty
  capacity : Option Nat := none

namespace ByteCollector

/-- The bytes that still fit. -/
def room? (collector : ByteCollector) : Option Nat :=
  collector.capacity.map (· - collector.bytes.size)

instance : Sink ByteCollector where
  write collector i :=
    let line := i.line.toUTF8
    let taken := match collector.room? with
      | some room => line.extract 0 room
      | none => line
    let after := { collector with bytes := collector.bytes ++ taken }
    if taken.size = line.size then (after, none)
    else (after, some "failed to write whole buffer")

end ByteCollector

/-- Keeps a record of each step of the compilation. -/
structure Journal where
  entries : Array String := #[]

namespace Journal

def describe : Remark → String
  | .beginClass name => s!"DEBUG compiling class `{name}`"
  | .beginSubroutine kind name => s!"DEBUG compiling {kind.text} `{name}`"

instance : Sink Journal where
  write journal i := (⟨journal.entries.push ("TRACE " ++ i.text)⟩, none)
  note journal remark := ⟨journal.entries.push (describe remark)⟩

end Journal

end Jack
