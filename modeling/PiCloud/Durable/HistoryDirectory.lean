import Mathlib.Logic.Function.Basic
import PiCloud.Lib.LeafTree
import PiCloud.Lib.Outcome
import PiCloud.Lib.Utf16

/-!
# Durable.HistoryDirectory

The persistent directory of history ranges, `history-directory.ts`. Its nodes are immutable; a
branch names its children by identity and by digest.

* `Directory`: the nodes that were read or created, and the store below them. An identity is the
  number of its draw from `randomUUID`.
* `join`, `prefixTo`, `mapRanges`: the operations on trees. `prefixTo` is the source's `prefix`.
* `rootNode`, `visitRanges`: the reading of a referenced root, `shared-history-base.ts`.
-/

namespace PiCloud
namespace Durable

open Lib

/-- `source` is what a range carries beside its coordinates. -/
structure HistoryRange (S : Type) where
  source : S
  minId : Int
  maxId : Int
  count : Int
  fingerprint : JsString
deriving DecidableEq

inductive NodeKind (S D : Type) where
  | range (range : HistoryRange S)
  | branch (left right : Nat) (leftDigest rightDigest : D)

structure DraftNode (S D : Type) where
  minId : Int
  maxId : Int
  count : Int
  height : Nat
  kind : NodeKind S D

structure HistoryNode (S D : Type) extends DraftNode S D where
  id : Nat
  digest : D

variable {S D : Type}

/-- What is known of a directory at any time: a cached node carries its identity and its digest and
is created or stored, a created one is cached and not stored, and no identity that is still to be
drawn is in use. -/
structure Directory (hash : Nat → DraftNode S D → D) where
  cache : Nat → Option (HistoryNode S D)
  created : Nat → Option (HistoryNode S D)
  store : Nat → Option (HistoryNode S D)
  next : Nat
  cached : ∀ {id n}, cache id = some n → n.id = id ∧ n.digest = hash id n.toDraftNode ∧ id < next
  held : ∀ {id n}, created id = some n → cache id = some n ∧ store id = none
  known : ∀ {id n}, cache id = some n → created id = some n ∨ store id = some n
  stored : ∀ {id n}, store id = some n → id < next

namespace Directory

variable {hash : Nat → DraftNode S D → D}

abbrev Op (hash : Nat → DraftNode S D → D) (α : Type) := Program (Directory hash) α

/-- A new directory over a store. -/
def opened (hash : Nat → DraftNode S D → D) (store : Nat → Option (HistoryNode S D))
    (next : Nat) (stored : ∀ {id n}, store id = some n → id < next) : Directory hash where
  cache := fun _ => none
  created := fun _ => none
  store := store
  next := next
  cached := by
    intro id n h
    cases h
  held := by
    intro id n h
    cases h
  known := by
    intro id n h
    cases h
  stored := stored

theorem cache_next (s : Directory hash) : s.cache s.next = none := by
  cases h : s.cache s.next with
  | none => rfl
  | some n => exact absurd (s.cached h).2.2 (Nat.lt_irrefl _)

theorem store_next (s : Directory hash) : s.store s.next = none := by
  cases h : s.store s.next with
  | none => rfl
  | some n => exact absurd (s.stored h) (Nat.lt_irrefl _)

/-- The directory after a checked node is read from the store. -/
def remember (s : Directory hash) (n : HistoryNode S D) (hn : n.digest = hash n.id n.toDraftNode)
    (hs : s.store n.id = some n) : Directory hash :=
  { s with
    cache  := Function.update s.cache n.id (some n)
    cached := by
      intro id m h
      by_cases hid : id = n.id
      · subst hid
        rw [Function.update_self] at h
        cases h
        exact ⟨rfl, hn, s.stored hs⟩
      · rw [Function.update_of_ne hid] at h
        exact s.cached h
    held := by
      intro id m h
      obtain ⟨hc, hs'⟩ := s.held h
      refine ⟨?_, hs'⟩
      have hid : id ≠ n.id := by
        rintro rfl
        rw [hs] at hs'
        cases hs'
      rw [Function.update_of_ne hid]
      exact hc
    known := by
      intro id m h
      by_cases hid : id = n.id
      · subst hid
        rw [Function.update_self] at h
        cases h
        exact .inr hs
      · rw [Function.update_of_ne hid] at h
        exact s.known h }

variable [DecidableEq D]

def read (id : Nat) : Op hash (HistoryNode S D) := fun s =>
  match s.cache id with
  | some n => (.ok n, s)
  | none =>
    match h : s.store id with
    | some n =>
      if hn : n.id = id ∧ n.digest = hash n.id n.toDraftNode then
        (.ok n, s.remember n hn.2 (by rw [hn.1]; exact h))
      else (.error "Retained history directory integrity check failed", s)
    | none => (.error "Retained history directory integrity check failed", s)

def draftOf (hash : Nat → DraftNode S D → D) (id : Nat) (value : DraftNode S D) :
    HistoryNode S D :=
  { value with id, digest := hash id value }

/-- The directory after a node is created under the next identity. -/
def adopt (s : Directory hash) (value : DraftNode S D) : Directory hash :=
  let node := draftOf hash s.next value
  { cache   := Function.update s.cache s.next (some node)
    created := Function.update s.created s.next (some node)
    store   := s.store
    next    := s.next + 1
    cached  := by
      intro id m h
      by_cases hid : id = s.next
      · subst hid
        rw [Function.update_self] at h
        cases h
        exact ⟨rfl, rfl, Nat.lt_succ_self _⟩
      · rw [Function.update_of_ne hid] at h
        obtain ⟨h1, h2, h3⟩ := s.cached h
        exact ⟨h1, h2, Nat.lt_succ_of_lt h3⟩
    held := by
      intro id m h
      by_cases hid : id = s.next
      · subst hid
        rw [Function.update_self] at h ⊢
        exact ⟨h, s.store_next⟩
      · rw [Function.update_of_ne hid] at h ⊢
        exact s.held h
    known := by
      intro id m h
      by_cases hid : id = s.next
      · subst hid
        rw [Function.update_self] at h ⊢
        exact .inl h
      · rw [Function.update_of_ne hid] at h ⊢
        exact s.known h
    stored := fun h => Nat.lt_succ_of_lt (s.stored h) }

def create (value : DraftNode S D) : Op hash (HistoryNode S D) := fun s =>
  (.ok (draftOf hash s.next value), s.adopt value)

def maxSafe : Int := 9007199254740991

/-- `/^[0-9a-f]{64}$/` -/
def isFingerprint (s : JsString) : Bool :=
  s.length = 64 && s.all fun u => (0x30 ≤ u && u ≤ 0x39) || (0x61 ≤ u && u ≤ 0x66)

def validRange (r : HistoryRange S) : Bool :=
  r.maxId ≤ maxSafe && 1 ≤ r.minId && r.minId ≤ r.maxId && 1 ≤ r.count && r.count ≤ maxSafe &&
    isFingerprint r.fingerprint

def range (r : HistoryRange S) : Op hash (HistoryNode S D) :=
  if validRange r then
    create { minId := r.minId, maxId := r.maxId, count := r.count, height := 1, kind := .range r }
  else throw "Invalid retained history range"

def pair (left right : HistoryNode S D) : Op hash (HistoryNode S D) :=
  create {
    minId := min left.minId right.minId
    maxId := max left.maxId right.maxId
    count := left.count + right.count
    height := max left.height right.height + 1
    kind := .branch left.id right.id left.digest right.digest }

def children (node : HistoryNode S D) : Op hash (HistoryNode S D × HistoryNode S D) :=
  match node.kind with
  | .range _ => throw "History directory height is inconsistent"
  | .branch leftId rightId leftDigest rightDigest => do
    let left ← read leftId
    let right ← read rightId
    if left.digest = leftDigest ∧ right.digest = rightDigest ∧
        node.height = max left.height right.height + 1 ∧
        node.count = left.count + right.count ∧
        node.minId = min left.minId right.minId ∧ node.maxId = max left.maxId right.maxId then
      return (left, right)
    else throw "Retained history directory branch changed"

def balance (left right : HistoryNode S D) : Op hash (HistoryNode S D) := do
  if left.height > right.height + 1 then
    let (a, b) ← children left
    if a.height ≥ b.height then pair a (← pair b right)
    else
      let (c, d) ← children b
      pair (← pair a c) (← pair d right)
  else if right.height > left.height + 1 then
    let (a, b) ← children right
    if b.height ≥ a.height then pair (← pair left a) b
    else
      let (c, d) ← children a
      pair (← pair left c) (← pair d b)
  else pair left right

/-- The recursion goes to a child, which is lower. -/
def joinWithin : Nat → HistoryNode S D → HistoryNode S D → Op hash (HistoryNode S D)
  | 0, left, right => pair left right
  | fuel + 1, left, right => do
    if left.height > right.height + 1 then
      let (a, b) ← children left
      balance a (← joinWithin fuel b right)
    else if right.height > left.height + 1 then
      let (a, b) ← children right
      balance (← joinWithin fuel left a) b
    else pair left right

def join (left right : Option (HistoryNode S D)) : Op hash (Option (HistoryNode S D)) :=
  match left, right with
  | none, right => return right
  | left, none => return left
  | some left, some right => return some (← joinWithin (left.height + right.height) left right)

def clipEscapes (clipped range : HistoryRange S) (count maximumId : Int) : Prop :=
  clipped.source ≠ range.source ∨ clipped.minId < range.minId ∨ clipped.maxId > maximumId ∨
    clipped.count > count

variable [DecidableEq S]

instance (clipped range : HistoryRange S) (count maximumId : Int) :
    Decidable (clipEscapes clipped range count maximumId) := by
  unfold clipEscapes
  infer_instance

def prefixWithin (clip : HistoryRange S → Int → Option (HistoryRange S)) (maximumId : Int) :
    Nat → HistoryNode S D → Op hash (Option (HistoryNode S D))
  | fuel, node => do
    if maximumId < node.minId then return none
    else if node.maxId ≤ maximumId then return some node
    else
      match node.kind with
      | .range r =>
        match clip r maximumId with
        | none => return none
        | some clipped =>
          if clipEscapes clipped r node.count maximumId then
            throw "Clipped history escaped its snapshot boundary"
          else return some (← range clipped)
      | .branch .. =>
        let (left, right) ← children node
        match fuel with
        | 0 => throw "History directory height is inconsistent"
        | fuel + 1 =>
          let a ← prefixWithin clip maximumId fuel left
          let b ← prefixWithin clip maximumId fuel right
          join a b

def prefixTo (clip : HistoryRange S → Int → Option (HistoryRange S))
    (node : Option (HistoryNode S D)) (maximumId : Int) : Op hash (Option (HistoryNode S D)) :=
  match node with
  | none => return none
  | some node => prefixWithin clip maximumId node.height node

/-- What a selection makes of a range; `keep` is the very range it was given. -/
inductive Selected (S : Type) where
  | keep
  | change (range : HistoryRange S)
  | drop

def mapWithin (select : HistoryRange S → Selected S) :
    Nat → HistoryNode S D → Op hash (Option (HistoryNode S D))
  | fuel, node => do
    match node.kind with
    | .range r =>
      match select r with
      | .keep => return some node
      | .change r' => return some (← range r')
      | .drop => return none
    | .branch .. =>
      let (left, right) ← children node
      match fuel with
      | 0 => throw "History directory height is inconsistent"
      | fuel + 1 =>
        let a ← mapWithin select fuel left
        let b ← mapWithin select fuel right
        if a.map (·.id) = some left.id ∧ b.map (·.id) = some right.id then return some node
        else join a b

def mapRanges (select : HistoryRange S → Selected S) (node : Option (HistoryNode S D)) :
    Op hash (Option (HistoryNode S D)) :=
  match node with
  | none => return none
  | some node => mapWithin select node.height node

/-! ## Reading a root -/

/-- A root that is referenced by its identity and its digest. -/
def rootNode (id : Nat) (digest : D) : Op hash (HistoryNode S D) := do
  let root ← read id
  if root.digest = digest then return root
  else throw "Shared history root integrity check failed"

/-- The visit of `verifySharedEntries`: the ranges below a node in order, each of them checked
against its records. -/
def visitRanges (verify : HistoryRange S → Bool) :
    Nat → HistoryNode S D → Op hash (List (HistoryRange S))
  | fuel, node => do
    match node.kind with
    | .range r =>
      if verify r then return [r] else throw "Shared history range integrity check failed"
    | .branch leftId rightId leftDigest rightDigest =>
      let left ← read leftId
      let right ← read rightId
      if left.digest = leftDigest ∧ right.digest = rightDigest ∧
          left.count + right.count = node.count then
        match fuel with
        | 0 => throw "Shared history directory integrity check failed"
        | fuel + 1 =>
          let xs ← visitRanges verify fuel left
          let ys ← visitRanges verify fuel right
          return xs ++ ys
      else throw "Shared history directory integrity check failed"

def visitSequence (verify : HistoryRange S → Bool) (node : Option (HistoryNode S D)) :
    Op hash (List (HistoryRange S)) :=
  match node with
  | none => return []
  | some node => visitRanges verify node.height node

end Directory
end Durable
end PiCloud
