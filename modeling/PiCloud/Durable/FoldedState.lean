import PiCloud.Durable.ProjectionInvariant

/-!
# Durable.FoldedState

Native batches in projection transactions, each of which applies some of them or none at all.

* `Projector.project`: a transaction; its memory is adopted with its tables.
* `folded_current_state`: however the batches are split, the current row of a document is the
  document that its stored revisions make.
-/

namespace PiCloud
namespace Durable

open Lib ProjectionTables

structure Projector (Op D : Type) where
  db : ProjectionTables Op D := {}
  live : NativeLiveState := {}

def Projector.current {Op D : Type} (p : Projector Op D) (id : Nat) : Option CurrentStateRow :=
  (p.db.current.get id).map fun e => liveRow p.live id e.row

theorem Inv.empty {Op D : Type}
    {applyImmutableBatches : Members → List (List Op) → Except String Members}
    {digests : Digests Op D} :
    Inv applyImmutableBatches digests ({} : ProjectionTables Op D) fun _ _ => none where
  chain := ⟨fun _ => rfl, fun k c hc => by cases hc⟩
  commit k c hc := by cases hc
  table _ := rfl
  index id hid := by cases hid
  created k c hc := by cases hc

section Transactions

variable {Op D : Type} [DecidableEq D]
  (applyImmutableBatches : Members → List (List Op) → Except String Members)
  (digests : Digests Op D)

def applyCommit (p : Projector Op D) (fact : DeliveredCommit Op) :
    Except String (Projector Op D) := do
  let (db, live, _) ← applyIn applyImmutableBatches digests p.db fact p.live
  return { db, live }

/-- A transaction that fails leaves tables and memory as they were. -/
def Projector.project (p : Projector Op D) (facts : List (DeliveredCommit Op)) : Projector Op D :=
  match facts.foldlM (applyCommit applyImmutableBatches digests) p with
  | .error _ => p
  | .ok p' => p'

def projectAll (transactions : List (List (DeliveredCommit Op))) : Projector Op D :=
  transactions.foldl (Projector.project applyImmutableBatches digests) {}

def Projector.Current (p : Projector Op D) : Prop :=
  ∃ V, Inv applyImmutableBatches digests p.db V ∧
    (LiveAt p.db V p.db.head p.live ∨ p = {})

variable {applyImmutableBatches} {digests}

theorem replay_seen {db : ProjectionTables Op D} {V : Nat → Nat → Option CurrentStateRow} {t : Nat}
    {live : NativeLiveState} (hl : LiveAt db V t live) {batch : DurableBatch Op}
    (hseq : batch.seq ≤ t) (hashes : List (Nat × D)) (position : ReplayPosition) :
    replayLiveIn applyImmutableBatches digests db batch hashes live position = .ok live := by
  unfold replayLiveIn initializeLive
  rw [hl.through, ok_bind]
  dsimp only
  rw [hl.through, Option.getD_some, if_pos hseq]
  rfl

theorem applyIn_ok {db db' : ProjectionTables Op D} {live live' : NativeLiveState}
    {fact : DeliveredCommit Op} {new : Bool}
    (h : applyIn applyImmutableBatches digests db fact live = .ok (db', live', new)) :
    (∃ k prior, fact.batch.seq = k + 1 ∧ db.commits[k]? = some prior ∧ db' = db ∧ new = false ∧
      replayLiveIn applyImmutableBatches digests db fact.batch prior.currentHashes live
        fact.position = .ok live') ∨
    (db.commit fact.batch.seq = none ∧ new = true ∧
      projectIn applyImmutableBatches digests db fact live = .ok (db', live')) := by
  unfold applyIn at h
  cases hprior : db.commit fact.batch.seq with
  | some prior =>
    rw [hprior] at h
    dsimp only at h
    split at h
    · cases h
    · obtain ⟨live₁, hreplay, h⟩ := bind_eq_ok.mp h
      cases h
      cases hseq : fact.batch.seq with
      | zero =>
        rw [hseq] at hprior
        cases hprior
      | succ k =>
        rw [hseq] at hprior
        exact .inl ⟨k, prior, rfl, hprior, rfl, rfl, hreplay⟩
  | none =>
    rw [hprior] at h
    obtain ⟨⟨db₁, live₁⟩, hproject, h⟩ := bind_eq_ok.mp h
    cases h
    exact .inr ⟨rfl, rfl, hproject⟩

theorem applyCommit_current {p p' : Projector Op D} {fact : DeliveredCommit Op}
    (hp : p.Current applyImmutableBatches digests)
    (h : applyCommit applyImmutableBatches digests p fact = .ok p') :
    p'.Current applyImmutableBatches digests := by
  obtain ⟨V, hinv, hlive⟩ := hp
  unfold applyCommit at h
  obtain ⟨⟨db', live', new⟩, happly, h⟩ := bind_eq_ok.mp h
  cases h
  obtain ⟨k, prior, hseq, hget, rfl, _, hreplay⟩ | ⟨_, _, hproject⟩ := applyIn_ok happly
  · obtain hl | rfl := hlive
    · have hlt : k < p.db.commits.length := (List.getElem?_eq_some_iff.mp hget).1
      have hle : fact.batch.seq ≤ p.db.head := by rw [hseq]; exact hlt
      rw [replay_seen hl hle] at hreplay
      cases hreplay
      exact ⟨V, hinv, .inl hl⟩
    · cases hget
  · have hm : Memory p.db V p.live := by
      obtain hl | rfl := hlive
      · exact .inl ⟨_, hl⟩
      · exact .inr rfl
    obtain ⟨V', _, hinv', hl', _⟩ := projectIn_keeps hm hinv hproject
    exact ⟨V', hinv', .inl hl'⟩

theorem project_current {p : Projector Op D} (hp : p.Current applyImmutableBatches digests)
    (facts : List (DeliveredCommit Op)) :
    (p.project applyImmutableBatches digests facts).Current applyImmutableBatches digests := by
  unfold Projector.project
  split
  · exact hp
  · rename_i p' hok
    induction facts generalizing p with
    | nil =>
      cases hok
      exact hp
    | cons fact facts ih =>
      obtain ⟨q, hq, hrest⟩ := bind_eq_ok.mp hok
      exact ih (applyCommit_current hp hq) hrest

theorem projectAll_current (transactions : List (List (DeliveredCommit Op))) :
    (projectAll applyImmutableBatches digests transactions : Projector Op D).Current
      applyImmutableBatches digests := by
  unfold projectAll
  have hstart : ({} : Projector Op D).Current applyImmutableBatches digests :=
    ⟨_, Inv.empty, .inr rfl⟩
  generalize ({} : Projector Op D) = p at hstart ⊢
  induction transactions generalizing p with
  | nil => exact hstart
  | cons facts transactions ih => exact ih _ (project_current hstart facts)

end Transactions

/-- However the native batches are split into transactions, what the row of a document holds (its
version, its value and its delta count) is what the reader makes of all its stored revisions. -/
theorem folded_current_state {Op D : Type} [DecidableEq D]
    {applyImmutableBatches : Members → List (List Op) → Except String Members}
    (hc : Composes applyImmutableBatches) (digests : Digests Op D) (retention : Retention)
    (transactions : List (List (DeliveredCommit Op))) (id : Nat) :
    let p := projectAll applyImmutableBatches digests transactions
    readDocument applyImmutableBatches retention id (p.db.commits.map fun c => c.fact.batch)
      = .ok (currentDocument (p.current id)) := by
  intro p
  obtain ⟨V, hinv, hlive⟩ : p.Current applyImmutableBatches digests :=
    projectAll_current transactions
  obtain ⟨stored, hstored, hagrees⟩ := hinv.chain.agrees hc retention (Nat.le_refl _) id
  rw [List.take_length] at hstored
  rw [hagrees.read retention hstored]
  congr 2
  obtain hl | hempty := hlive
  · exact (hl.found hinv id).symm
  · rw [hempty] at hinv ⊢
    exact hinv.chain.start id

/-! ## A live document in two transactions -/

def assignMembers (value : Members) (batches : List (List (JsString × Json))) :
    Except String Members :=
  .ok (batches.flatten.foldl (fun m op => m.filter (fun p => p.1 ≠ op.1) ++ [op]) value)

theorem assignMembers_composes : Composes assignMembers where
  nil _ := rfl
  append value a b := by
    unfold assignMembers
    rw [List.flatten_append, List.foldl_append]
    rfl

def sequenceDigests {Op : Type} : Digests Op Nat where
  row r := r.seq
  commit batch _ := batch.seq

/-- A live document is created settled, and a delta begins a generation. -/
def liveTransactions : List (List (DeliveredCommit (JsString × Json))) :=
  [[{ batch :=
        { seq := 1, nextId := 6
          writes := [.documentCreate { id := 5, kind := "pi.live", scope := .conversation 2
                                       history := some "latest" } (.base 1 [])]
          claimed := by decide }
      origins := fun _ => none
      position := { topic := ascii "t", partition := 0, offset := 10 } }],
   [{ batch :=
        { seq := 2, nextId := 6
          writes := [.documentChange 5 (.delta 1 [(ascii "generation", .num 1)])]
          claimed := by decide }
      origins := fun _ => none
      position := { topic := ascii "t", partition := 0, offset := 12 } }]]

theorem folded_current_state_live :
    let p := projectAll assignMembers sequenceDigests liveTransactions
    p.db.head = 2 ∧ p.live.through = some 2 ∧
      readDocument assignMembers indexedRetention 5 (p.db.commits.map fun c => c.fact.batch)
        = .ok (currentDocument (p.current 5)) :=
  ⟨by decide, by decide,
    folded_current_state assignMembers_composes sequenceDigests indexedRetention liveTransactions 5⟩

end Durable
end PiCloud
