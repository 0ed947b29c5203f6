import PiCloud.Lib.InsertionMap
import PiCloud.Lib.Run

/-!
# Worker.FamilyModelPermits

Model requests of one worker, admitted by family: a limit for all, one for each family, and the
families that wait served in turn.

* `Permits`: the families, the ready queue, and what became of every waiter.
* `drain`: admits the next waiter of the first ready family that has room.
* `act`: `acquire`, the abort of a signal, the release of a permit, and `close`.
-/

namespace PiCloud
namespace Worker

open Lib (InsertionMap)

structure Limits where
  maximum : Option Nat
  perFamily : Option Nat

/-- A family object: closures keep it after the map has dropped it. -/
structure Family where
  active : Nat := 0
  queue : List Nat := []
deriving DecidableEq

/-- How the promise of a waiter settled. -/
inductive Settlement where
  | granted | aborted | closed
deriving DecidableEq

/-- Waiters are numbered in the order of their arrival, and family objects in the order of their
creation. -/
structure Permits (κ : Type) where
  families : InsertionMap κ Nat
  cells : Nat → Family
  nextCell : Nat
  ready : List κ
  active : Nat
  closed : Bool
  issued : Nat
  /-- The key and the family object that the closures of a waiter hold. -/
  owner : Nat → Option (κ × Nat)
  /-- The waiters whose signal has the listener `abort`. -/
  listening : List Nat
  /-- The calls of `resolve` and `reject`, in their order. -/
  settled : List (Nat × Settlement)
  /-- The granted waiters whose `release` has not been called. -/
  permits : List Nat
  /-- The last sample that `onChange` got. -/
  sample : Nat × Nat

namespace Permits

variable {κ : Type}

def initial : Permits κ where
  families := {}
  cells _ := {}
  nextCell := 0
  ready := []
  active := 0
  closed := false
  issued := 0
  owner _ := none
  listening := []
  settled := []
  permits := []
  sample := (0, 0)

def setCell (s : Permits κ) (ref : Nat) (f : Family) : Permits κ :=
  { s with cells := Function.update s.cells ref f }

def waiting (s : Permits κ) : Nat := s.families.sum fun ref => (s.cells ref).queue.length

def open? (o : Limits) (s : Permits κ) : Bool := o.maximum.all (s.active < ·)

def full (o : Limits) (f : Family) : Bool := o.perFamily.any (· ≤ f.active)

variable [DecidableEq κ]

/-- `#prune` -/
def prune (s : Permits κ) (key : κ) (ref : Nat) : Permits κ :=
  let s := if (s.cells ref).queue = [] then { s with ready := s.ready.erase key } else s
  if (s.cells ref).active = 0 ∧ (s.cells ref).queue = [] then
    { s with families := s.families.delete key }
  else s

/-- The first waiter of a family gets a permit: `ready` and `queue` are what is left. -/
def grant (s : Permits κ) (key : κ) (ref waiter : Nat) (queue : List Nat) (ready : List κ) :
    Permits κ :=
  { s with
    ready := if queue = [] then ready else ready ++ [key]
    cells := Function.update s.cells ref ⟨(s.cells ref).active + 1, queue⟩
    active := s.active + 1
    listening := s.listening.erase waiter
    settled := s.settled ++ [(waiter, .granted)]
    permits := waiter :: s.permits }

/-- The loop of `#drain`, after `skipped` families in a row were full; `fuel` bounds its rounds. A
ready family has an entry and a waiter: the other branches are type errors that do not happen. -/
def drainLoop (o : Limits) : Nat → Nat → Permits κ → Permits κ
  | 0, _, s => s
  | fuel + 1, skipped, s =>
    if s.closed = false ∧ s.open? o ∧ skipped < s.ready.length then
      match s.ready with
      | [] => s
      | key :: ready =>
        match s.families.get key with
        | none => s
        | some ref =>
          if full o (s.cells ref) then drainLoop o fuel (skipped + 1) { s with ready := ready ++ [key] }
          else
            match (s.cells ref).queue with
            | [] => s
            | waiter :: queue => drainLoop o fuel 0 (s.grant key ref waiter queue ready)
    else s

def rounds (s : Permits κ) : Nat := (s.waiting + 1) * (s.ready.length + 1)

/-- `#drain` -/
def drain (o : Limits) (s : Permits κ) : Permits κ :=
  let s := drainLoop o s.rounds 0 s
  { s with sample := (s.active, s.waiting) }

/-- The family object of a key, a new one where it has none. -/
def family (s : Permits κ) (key : κ) : Permits κ × Nat :=
  match s.families.get key with
  | some ref => (s, ref)
  | none =>
    ({ s with
        families := s.families.set key s.nextCell
        cells := Function.update s.cells s.nextCell {}
        nextCell := s.nextCell + 1 }, s.nextCell)

/-- `acquire`; an aborted signal throws before anything is done. -/
def acquire (o : Limits) (s : Permits κ) (key : κ) (signal : Bool) : Permits κ :=
  let waiter := s.issued
  if s.closed then
    { s with issued := waiter + 1, settled := s.settled ++ [(waiter, .closed)] }
  else
    let (s, ref) := s.family key
    let f := s.cells ref
    drain o { s with
      issued := waiter + 1
      owner := Function.update s.owner waiter (some (key, ref))
      ready := if f.queue = [] then s.ready ++ [key] else s.ready
      cells := Function.update s.cells ref { f with queue := f.queue ++ [waiter] }
      listening := if signal then waiter :: s.listening else s.listening }

/-- The listener of the signal of a waiter, which hears once. -/
def abort (o : Limits) (s : Permits κ) (waiter : Nat) : Option (Permits κ) := do
  guard (waiter ∈ s.listening)
  let (key, ref) ← s.owner waiter
  let f := s.cells ref
  let s := { s with listening := s.listening.erase waiter }
  if waiter ∈ f.queue then
    let s := { s.setCell ref { f with queue := f.queue.erase waiter } with
      settled := s.settled ++ [(waiter, Settlement.aborted)] }
    some (drain o (s.prune key ref))
  else some s

/-- The closure `release` of a waiter; `released` is set from the first call on. -/
def release (o : Limits) (s : Permits κ) (waiter : Nat) : Option (Permits κ) := do
  guard ((waiter, .granted) ∈ s.settled)
  let (key, ref) ← s.owner waiter
  if waiter ∈ s.permits then
    let f := s.cells ref
    let s := { s.setCell ref { f with active := f.active - 1 } with
      active := s.active - 1
      permits := s.permits.erase waiter }
    some (drain o (s.prune key ref))
  else some s

/-- The body of the loop of `close`. -/
def closeFamily (s : Permits κ) (key : κ) (ref : Nat) : Permits κ :=
  let f := s.cells ref
  let s := { s.setCell ref { f with queue := [] } with
    listening := s.listening.filter (· ∉ f.queue)
    settled := s.settled ++ f.queue.map (·, Settlement.closed) }
  s.prune key ref

def close (o : Limits) (s : Permits κ) : Permits κ :=
  let s := { s with closed := true }
  let s := s.families.entries.foldl (fun (s : Permits κ) e => s.closeFamily e.1 e.2) s
  drain o { s with ready := [] }

end Permits

inductive Action (κ : Type) where
  | acquire (key : κ) (signal : Bool)
  | abort (waiter : Nat)
  | release (waiter : Nat)
  | close
deriving DecidableEq

def act {κ : Type} [DecidableEq κ] (o : Limits) (s : Permits κ) : Action κ → Option (Permits κ)
  | .acquire key signal => some (s.acquire o key signal)
  | .abort waiter => s.abort o waiter
  | .release waiter => s.release o waiter
  | .close => some (s.close o)

def system (κ : Type) [DecidableEq κ] (o : Limits) : Lib.System (Permits κ) (Action κ) where
  init s := s = .initial
  step s a t := act o s a = some t

end Worker
end PiCloud
