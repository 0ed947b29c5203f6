import PiCloud.Lib.History
import PiCloud.Runtime.ExecutionBoundary

/-!
# Runtime.BoundaryAgreement

The caches of the boundary against the rows, over every run of the projector.

* `Rows.Sound`: leases belong to one Run, and a Run that is not sealed has an open writer.
* `Boundary.Sound`: what a cached closure, tombstone or open execution says of the rows.
* `Projector.Sound.step`: every operation keeps both.
* `observes_sealed`: nothing is observed of a writer whose seal has been projected.
* `boundary_agrees`: what `isOpen` answers is what an empty cache answers, but for a prefix check
  that is made once, and for records already read.
* `cache_disagrees`: a record of either kind.
-/

namespace PiCloud
namespace Runtime
namespace ExecutionStream

open Lib

/-! ## The rows -/

structure Rows.Sound (rows : Rows) (outbox : List SealFact) : Prop where
  leased : ∀ {k r lease}, rows.runs.get k = some r → r.leaseId = some lease →
    ∃ w, rows.leases.get lease = some w
  unique : ∀ {k j r q lease}, rows.runs.get k = some r → rows.runs.get j = some q →
    r.leaseId = some lease → q.leaseId = some lease → k = j
  requested : ∀ {k r factId}, rows.runs.get k = some r → r.outputSealId = some factId →
    ∃ f ∈ outbox, f.factId = factId ∧ r.leaseId = some f.writer
  ids : ∀ f ∈ outbox, ∀ g ∈ outbox, f.factId = g.factId → f = g
  owned : ∀ {k r}, rows.runs.get k = some r → r.outputSealedAt = true → r.leaseId.isSome = true
  unsealed : ∀ {k r lease w}, rows.runs.get k = some r → r.leaseId = some lease →
    r.outputSealedAt = false → rows.leases.get lease = some w → w.writerSealOffset = none
  /-- a Run is sealed no later than its writer -/
  ordered : ∀ {k r lease}, rows.runs.get k = some r → r.leaseId = some lease →
    r.outputSealedAt = true → ∃ y, r.outputSealOffset = some y ∧
      ∀ w d, rows.leases.get lease = some w → w.writerSealOffset = some d → y ≤ d

theorem Rows.owner_eq {rows : Rows} {run writer : Nat} {r : RunRow} {w : Writer} :
    rows.owner run writer = some (r, w) ↔
      rows.runs.get run = some r ∧ rows.leases.get writer = some w := by
  unfold Rows.owner
  constructor
  · intro h
    obtain ⟨r', hr, h⟩ := bind_some h
    obtain ⟨w', hw, h⟩ := bind_some h
    cases h
    exact ⟨hr, hw⟩
  · rintro ⟨hr, hw⟩
    rw [hr, hw]
    rfl

/-- What later rows keep: closures stay, and no Run goes back to a lease that it left. -/
structure Rows.Later (rows rows' : Rows) : Prop where
  leases : ∀ {lease w}, rows.leases.get lease = some w →
    ∃ w', rows'.leases.get lease = some w' ∧ w'.partition = w.partition ∧
      ∀ d, w.writerSealOffset = some d → w'.writerSealOffset = some d
  runs : ∀ {k r}, rows.runs.get k = some r → ∃ r', rows'.runs.get k = some r' ∧
    (r.outputSealedAt = true → r'.leaseId = r.leaseId ∧ r'.outputSealedAt = true ∧
      r'.outputSealOffset = r.outputSealOffset) ∧
    ∀ lease w, rows.leases.get lease = some w → r'.leaseId = some lease → r.leaseId = some lease

/-! ## The caches -/

/-- What a tombstone says: it is the seal of the Run, or one that was read after it. -/
def Tombstone (rows : Rows) (position : Nat → Nat) (writer run : Nat) (cutoff : Int) : Prop :=
  ∃ r w, rows.owner run writer = some (r, w) ∧
    ((r.leaseId = some writer ∧ r.outputSealedAt = true ∧ r.outputSealOffset.getD (-1) = cutoff) ∨
      (w.writerSealOffset.isSome = true ∧ cutoff < position w.partition ∧
        (r.leaseId = some writer →
          r.outputSealedAt = true ∧ r.outputSealOffset.getD (-1) ≤ cutoff)))

def Opened (rows : Rows) (writer run : Nat) : Prop :=
  ∃ r, rows.runs.get run = some r ∧ r.leaseId = some writer ∧ r.outputSealedAt = false

structure Boundary.Sound (b : Boundary) (rows : Rows) (position : Nat → Nat) : Prop where
  writers : ∀ {writer cutoff}, b.writers.get writer = some cutoff →
    ∃ w d, rows.leases.get writer = some w ∧ w.writerSealOffset = some d ∧ d ≤ cutoff
  closed : ∀ {writer run cutoff}, b.closed.get (writer, run) = some cutoff →
    Tombstone rows position writer run cutoff
  opened : ∀ {writer run}, (writer, run) ∈ b.opened → Opened rows writer run

namespace Boundary

variable {b : Boundary} {rows rows' : Rows} {position position' : Nat → Nat}

theorem sound_empty : Sound {} rows position where
  writers h := by cases h
  closed h := by cases h
  opened h := by cases h

theorem get_closedWriters {writer j : Nat} {offset x : Int}
    (h : (b.closedWriters writer offset).get j = some x) :
    j = writer ∧ x = offset ∨ b.writers.get j = some x := by
  have hset : (b.writers.set writer offset).get j = some x →
      j = writer ∧ x = offset ∨ b.writers.get j = some x := by
    intro h
    rw [InsertionMap.get_set] at h
    split at h
    · rename_i heq
      cases h
      exact .inl ⟨heq, rfl⟩
    · exact .inr h
  unfold Boundary.closedWriters at h
  split at h
  · exact hset h
  · split at h
    · exact hset h
    · exact .inr h

theorem Sound.closeWriter (h : b.Sound rows position) {writer : Nat} {offset d : Int} {w : Writer}
    (hw : rows.leases.get writer = some w) (hd : w.writerSealOffset = some d) (hle : d ≤ offset) :
    (b.closeWriter writer offset).Sound rows position := by
  have hws : ∀ {j cutoff}, (b.closedWriters writer offset).get j = some cutoff →
      ∃ w d, rows.leases.get j = some w ∧ w.writerSealOffset = some d ∧ d ≤ cutoff := by
    intro j cutoff hj
    obtain ⟨rfl, rfl⟩ | hj := get_closedWriters hj
    · exact ⟨w, d, hw, hd, hle⟩
    · exact h.writers hj
  unfold Boundary.closeWriter
  dsimp only
  split
  · refine ⟨fun hj => hws (InsertionMap.get_deleteOldest_some hj), h.closed, ?_⟩
    intro writer run hm
    cases hm
  · exact ⟨hws, h.closed, h.opened⟩

theorem get_reinsert {identity j : Nat × Nat} {cutoff x : Int}
    (h : (b.reinsert identity cutoff).get j = some x) :
    j = identity ∧ x = cutoff ∨ b.closed.get j = some x := by
  unfold Boundary.reinsert at h
  rw [InsertionMap.get_set] at h
  split at h
  · rename_i heq
    cases h
    exact .inl ⟨heq, rfl⟩
  · rw [InsertionMap.get_delete] at h
    split at h
    · cases h
    · exact .inr h

theorem Sound.close (h : b.Sound rows position) {run writer : Nat} {offset : Int}
    (hlater : ∀ {j k cutoff}, Tombstone rows position j k cutoff → Tombstone rows' position' j k cutoff)
    (hwriters : ∀ {j w d}, rows.leases.get j = some w → w.writerSealOffset = some d →
      ∃ w', rows'.leases.get j = some w' ∧ w'.writerSealOffset = some d)
    (hopened : ∀ {j k}, Opened rows j k → (j, k) ≠ (writer, run) → Opened rows' j k)
    (ht : Tombstone rows' position' writer run offset) :
    (b.close run writer offset).Sound rows' position' := by
  have hcutoff : Tombstone rows' position' writer run (b.earliest (writer, run) offset) := by
    unfold Boundary.earliest
    split
    · exact ht
    · rename_i previous hp
      split
      · exact ht
      · exact hlater (h.closed hp)
  have hclosed : ∀ {j k cutoff},
      (b.reinsert (writer, run) (b.earliest (writer, run) offset)).get (j, k) = some cutoff →
        Tombstone rows' position' j k cutoff := by
    intro j k cutoff hj
    obtain ⟨heq, hx⟩ | hj := get_reinsert hj
    · cases heq
      exact hx ▸ hcutoff
    · exact hlater (h.closed hj)
  unfold Boundary.close
  refine ⟨?_, ?_, ?_⟩
  · intro j cutoff hj
    obtain ⟨w, d, hw, hd, hle⟩ := h.writers hj
    obtain ⟨w', hw', hd'⟩ := hwriters hw hd
    exact ⟨w', d, hw', hd', hle⟩
  · intro j k cutoff hj
    dsimp only at hj
    split at hj
    · exact hclosed (InsertionMap.get_deleteOldest_some hj)
    · exact hclosed hj
  · intro j k hm
    dsimp only at hm
    rw [List.mem_filter, decide_eq_true_eq] at hm
    exact hopened (h.opened hm.1) hm.2

theorem Tombstone.later (hl : rows.Later rows') (hp : ∀ partition, position partition ≤ position' partition)
    {writer run : Nat} {cutoff : Int} (h : Tombstone rows position writer run cutoff) :
    Tombstone rows' position' writer run cutoff := by
  obtain ⟨r, w, howner, hcase⟩ := h
  obtain ⟨hr, hw⟩ := Rows.owner_eq.mp howner
  obtain ⟨r', hr', hsealed, hback⟩ := hl.runs hr
  obtain ⟨w', hw', hpart, hkept⟩ := hl.leases hw
  refine ⟨r', w', Rows.owner_eq.mpr ⟨hr', hw'⟩, ?_⟩
  obtain ⟨hlease, hs, hx⟩ | ⟨hs, hlt, himp⟩ := hcase
  · obtain ⟨hlease', hs', hy⟩ := hsealed hs
    exact .inl ⟨hlease'.trans hlease, hs', hy ▸ hx⟩
  · obtain ⟨d, hd⟩ := Option.isSome_iff_exists.mp hs
    refine .inr ⟨by rw [hkept d hd]; rfl, ?_, ?_⟩
    · have := hp w.partition
      rw [hpart]
      omega
    · intro hlease'
      obtain ⟨hrs, hle⟩ := himp (hback writer w hw hlease')
      obtain ⟨-, hs', hy⟩ := hsealed hrs
      exact ⟨hs', hy ▸ hle⟩

theorem Sound.later (h : b.Sound rows position) (hl : rows.Later rows')
    (hp : ∀ partition, position partition ≤ position' partition)
    (ho : ∀ {j k}, Opened rows j k → Opened rows' j k) : b.Sound rows' position' where
  writers := by
    intro j cutoff hj
    obtain ⟨w, d, hw, hd, hle⟩ := h.writers hj
    obtain ⟨w', hw', -, hkept⟩ := hl.leases hw
    exact ⟨w', d, hw', hkept d hd, hle⟩
  closed hj := Tombstone.later hl hp (h.closed hj)
  opened hj := ho (h.opened hj)

/-! ## `isOpen` -/

theorem Sound.reload (h : b.Sound rows position) (record : Record) (canonical : Bool)
    (howner : (rows.owner record.run record.writer).isSome = true) :
    (b.reload rows record canonical).2.Sound rows position := by
  obtain ⟨⟨r, w⟩, hrow⟩ := Option.isSome_iff_exists.mp howner
  obtain ⟨hr, hw⟩ := Rows.owner_eq.mp hrow
  unfold Boundary.reload
  rw [hrow]
  dsimp only
  split
  · split
    · exact h
    · rename_i sealed hd
      exact h.closeWriter hw hd (Int.le_refl sealed)
  · rename_i hlease
    rw [not_not] at hlease
    have hclose : ∀ {b' : Boundary}, b'.Sound rows position → r.outputSealedAt = true →
        (b'.close record.run record.writer (r.outputSealOffset.getD (-1))).Sound rows position :=
      fun hb hs => hb.close id (fun hj hd => ⟨_, hj, hd⟩) (fun hopen _ => hopen)
        ⟨r, w, hrow, .inl ⟨hlease, hs, rfl⟩⟩
    have hopens : ∀ {b' : Boundary}, b'.Sound rows position → ¬ r.outputSealedAt = true →
        Sound { b' with opened := (record.writer, record.run) :: b'.opened } rows position := by
      intro b' hb hopen
      refine ⟨hb.writers, hb.closed, ?_⟩
      intro j k hm
      obtain heq | hm := List.mem_cons.mp hm
      · cases heq
        exact ⟨r, hr, hlease, Bool.not_eq_true _ ▸ hopen⟩
      · exact hb.opened hm
    have hsealed : ∀ sealed, w.writerSealOffset = some sealed →
        (b.closeWriter record.writer sealed).Sound rows position :=
      fun sealed hd => h.closeWriter hw hd (Int.le_refl sealed)
    cases hd : w.writerSealOffset with
    | none =>
      dsimp only
      split
      · exact h
      · split
        · exact hclose h ‹_›
        · split
          · exact h
          · exact hopens h ‹_›
    | some sealed =>
      dsimp only
      split
      · exact hsealed sealed hd
      · split
        · exact hclose (hsealed sealed hd) ‹_›
        · split
          · exact hsealed sealed hd
          · exact hopens (hsealed sealed hd) ‹_›

theorem Sound.isOpen (h : b.Sound rows position) (record : Record) (canonical : Bool)
    (howner : (rows.owner record.run record.writer).isSome = true) :
    (b.isOpen rows record canonical).2.Sound rows position := by
  unfold Boundary.isOpen
  split
  · exact h
  · split
    · rename_i cutoff hc
      refine ⟨h.writers, ?_, h.opened⟩
      intro j k x hj
      obtain ⟨heq, hx⟩ | hj := get_reinsert hj
      · cases heq
        rw [hx]
        exact h.closed hc
      · exact h.closed hj
    · split
      · exact h
      · exact h.reload record canonical howner

/-- What the rows answer. -/
def durable (rows : Rows) (record : Record) (canonical : Bool) : Except Failure Bool :=
  match rows.owner record.run record.writer with
  | none => .ok false
  | some (r, w) =>
    if r.leaseId ≠ some record.writer then
      if w.writerSealOffset.isNone then .error .ownerUnclosed else .ok false
    else if w.writerSealOffset.any fun sealed => sealed ≤ (record.offset : Int) then .ok false
    else if r.outputSealedAt then
      .ok (!canonical && decide ((record.offset : Int) < r.outputSealOffset.getD (-1)))
    else if canonical && r.outputFirst.any fun first => first ≠ (record.partition, record.offset) then
      .error .prefixMissing
    else .ok true

theorem reload_fst (b : Boundary) (rows : Rows) (record : Record) (canonical : Bool) :
    (b.reload rows record canonical).1 = durable rows record canonical := by
  unfold Boundary.reload durable
  cases rows.owner record.run record.writer with
  | none =>
    have hneg : ¬ (record.offset : Int) < -1 := by omega
    simp only [hneg, decide_false, Bool.and_false]
  | some row =>
    obtain ⟨r, w⟩ := row
    dsimp only
    split
    · cases w.writerSealOffset <;> rfl
    · split
      · rfl
      · split
        · rfl
        · split <;> rfl

theorem isOpen_empty (rows : Rows) (record : Record) (canonical : Bool) :
    (({} : Boundary).isOpen rows record canonical).1 = durable rows record canonical :=
  reload_fst ..

end Boundary

def Passed (rows : Rows) (position : Nat → Nat) (record : Record) : Prop :=
  ∃ w, rows.leases.get record.writer = some w ∧ w.writerSealOffset.isSome = true ∧
    record.offset + 1 < position w.partition

section Agreement

variable {b : Boundary} {rows : Rows} {outbox : List SealFact} {position : Nat → Nat}
  {record : Record} {canonical : Bool}

theorem durable_closedWriter (h : b.Sound rows position) {cutoff : Int}
    (hc : b.writers.get record.writer = some cutoff) (hle : cutoff ≤ record.offset) :
    Boundary.durable rows record canonical = .ok false := by
  obtain ⟨w, d, hw, hd, hdc⟩ := h.writers hc
  unfold Boundary.durable
  split
  · rfl
  · rename_i r w' hrow
    have hw' := (Rows.owner_eq.mp hrow).2
    rw [hw] at hw'
    cases hw'
    split
    · rw [hd]
      rfl
    · rw [if_pos]
      rw [hd, Option.any_some, decide_eq_true_eq]
      omega

theorem durable_tombstone (hs : rows.Sound outbox) {cutoff : Int}
    (ht : Tombstone rows position record.writer record.run cutoff) :
    Except.ok (!canonical && decide ((record.offset : Int) < cutoff)) =
        Boundary.durable rows record canonical ∨
      (canonical = false ∧ (record.offset : Int) < cutoff ∧
        Boundary.durable rows record canonical = .ok false ∧ Passed rows position record) := by
  obtain ⟨r, w, hrow, hcase⟩ := ht
  obtain ⟨hr, hw⟩ := Rows.owner_eq.mp hrow
  unfold Boundary.durable
  rw [hrow]
  dsimp only
  obtain ⟨hlease, hsealed, hx⟩ | ⟨hclosed, hlt, himp⟩ := hcase
  · left
    rw [if_neg (not_not.mpr hlease), if_pos hsealed, hx]
    split
    · rename_i hany
      obtain ⟨d, hd, hle⟩ := (Option.any_eq_true ..).mp hany
      obtain ⟨y, hy, hord⟩ := hs.ordered hr hlease hsealed
      have hyd := hord w d hw hd
      rw [hy, Option.getD_some] at hx
      rw [decide_eq_true_eq] at hle
      have hpast : ¬ (record.offset : Int) < cutoff := by omega
      simp only [hpast, decide_false, Bool.and_false]
    · rfl
  · obtain ⟨d, hd⟩ := Option.isSome_iff_exists.mp hclosed
    have hpassed : (record.offset : Int) < cutoff → Passed rows position record :=
      fun hlt' => ⟨w, hw, hclosed, by omega⟩
    -- what the tombstone keeps open, the rows may have closed
    have hclose : Except.ok (!canonical && decide ((record.offset : Int) < cutoff)) =
        (Except.ok false : Except Failure Bool) ∨ (canonical = false ∧
          (record.offset : Int) < cutoff) := by
      cases canonical with
      | true => exact .inl rfl
      | false =>
        by_cases hlt' : (record.offset : Int) < cutoff
        · exact .inr ⟨rfl, hlt'⟩
        · exact .inl (by simp only [hlt', decide_false, Bool.and_false])
    split
    · rw [hd, Option.isNone_some, if_neg Bool.false_ne_true]
      exact hclose.imp id fun hc => ⟨hc.1, hc.2, rfl, hpassed hc.2⟩
    · rename_i hlease
      obtain ⟨hsealed, hle⟩ := himp (not_not.mp hlease)
      rw [if_pos hsealed]
      split
      · exact hclose.imp id fun hc => ⟨hc.1, hc.2, rfl, hpassed hc.2⟩
      · by_cases hbefore : (record.offset : Int) < r.outputSealOffset.getD (-1)
        · have hlt' : (record.offset : Int) < cutoff := by omega
          simp only [hbefore, hlt', decide_true, Bool.and_true, true_or]
        · rw [decide_eq_false hbefore, Bool.and_false]
          exact hclose.imp id fun hc => ⟨hc.1, hc.2, rfl, hpassed hc.2⟩

theorem agrees (hs : rows.Sound outbox) (h : b.Sound rows position) :
    (b.isOpen rows record canonical).1 = (({} : Boundary).isOpen rows record canonical).1 ∨
      (canonical = true ∧ (b.isOpen rows record canonical).1 = .ok true ∧
        (({} : Boundary).isOpen rows record canonical).1 = .error .prefixMissing) ∨
      (canonical = false ∧ (b.isOpen rows record canonical).1 = .ok true ∧
        (({} : Boundary).isOpen rows record canonical).1 = .ok false ∧
        Passed rows position record) := by
  rw [Boundary.isOpen_empty]
  unfold Boundary.isOpen
  split
  · rename_i hany
    left
    cases hc : b.writers.get record.writer with
    | none =>
      rw [hc] at hany
      cases hany
    | some cutoff =>
      rw [hc, Option.any_some, decide_eq_true_eq] at hany
      exact (durable_closedWriter h hc hany).symm
  · split
    · rename_i cutoff hc
      obtain heq | ⟨hcanon, hlt, hfalse, hpassed⟩ := durable_tombstone hs (h.closed hc)
      · exact .inl heq
      · refine .inr (.inr ⟨hcanon, ?_, hfalse, hpassed⟩)
        simp only [hcanon, hlt, decide_true, Bool.not_false, Bool.and_self]
    · split
      · rename_i hm
        obtain ⟨r, hr, hlease, hopen⟩ := h.opened hm
        obtain ⟨w, hw⟩ := hs.leased hr hlease
        have hunsealed := hs.unsealed hr hlease hopen hw
        unfold Boundary.durable
        rw [Rows.owner_eq.mpr ⟨hr, hw⟩]
        dsimp only
        rw [if_neg (not_not.mpr hlease), hunsealed, Option.any_none, if_neg Bool.false_ne_true,
          if_neg (by rw [hopen]; exact Bool.false_ne_true)]
        split
        · rename_i hfloor
          rw [Bool.and_eq_true] at hfloor
          exact .inr (.inl ⟨hfloor.1, rfl, rfl⟩)
        · exact .inl rfl
      · exact .inl (Boundary.reload_fst ..)

end Agreement

/-! ## Changes of an execution -/

/-- One Run changes, and the lease that it has. -/
structure OwnerChange (rows rows' : Rows) (k lease : Nat) (r r' : RunRow) (w w' : Writer) : Prop where
  found : rows.runs.get k = some r
  held : r.leaseId = some lease
  writer : rows.leases.get lease = some w
  runs : ∀ j, rows'.runs.get j = if j = k then some r' else rows.runs.get j
  leases : ∀ j, rows'.leases.get j = if j = lease then some w' else rows.leases.get j
  partition : w'.partition = w.partition
  closed : ∀ d, w.writerSealOffset = some d → w'.writerSealOffset = some d
  holds : r'.leaseId = some lease ∨ r'.leaseId = none
  sealed : r.outputSealedAt = true → r'.leaseId = r.leaseId ∧ r'.outputSealedAt = true ∧
    r'.outputSealOffset = r.outputSealOffset

namespace OwnerChange

variable {rows rows' : Rows} {k lease : Nat} {r r' : RunRow} {w w' : Writer}

/-- The Runs of `rows'`: the changed one, and the others. -/
theorem get_run (h : OwnerChange rows rows' k lease r r' w w') {j : Nat} {q : RunRow}
    (hq : rows'.runs.get j = some q) : j = k ∧ q = r' ∨ j ≠ k ∧ rows.runs.get j = some q := by
  rw [h.runs] at hq
  split at hq
  · rename_i heq
    cases hq
    exact .inl ⟨heq, rfl⟩
  · rename_i hne
    exact .inr ⟨hne, hq⟩

theorem get_lease (h : OwnerChange rows rows' k lease r r' w w') {j : Nat} {x : Writer}
    (hx : rows'.leases.get j = some x) :
    j = lease ∧ x = w' ∨ j ≠ lease ∧ rows.leases.get j = some x := by
  rw [h.leases] at hx
  split at hx
  · rename_i heq
    cases hx
    exact .inl ⟨heq, rfl⟩
  · rename_i hne
    exact .inr ⟨hne, hx⟩

theorem later (h : OwnerChange rows rows' k lease r r' w w') : rows.Later rows' where
  leases := by
    intro j x hx
    rw [h.leases]
    split
    · rename_i heq
      rw [heq, h.writer] at hx
      cases hx
      exact ⟨w', rfl, h.partition, h.closed⟩
    · exact ⟨x, hx, rfl, fun _ hd => hd⟩
  runs := by
    intro j q hq
    rw [h.runs]
    split
    · rename_i heq
      rw [heq, h.found] at hq
      cases hq
      refine ⟨r', rfl, h.sealed, fun l x _ hl => ?_⟩
      obtain hheld | hnone := h.holds
      · rw [hheld] at hl
        exact h.held.trans hl
      · rw [hnone] at hl
        cases hl
    · exact ⟨q, hq, fun hs => ⟨rfl, hs, rfl⟩, fun _ _ _ hl => hl⟩

theorem opened (h : OwnerChange rows rows' k lease r r' w w') {j i : Nat} (ho : Opened rows j i)
    (hne : (j, i) ≠ (lease, k) ∨ r'.leaseId = some lease ∧ r'.outputSealedAt = false) :
    Opened rows' j i := by
  obtain ⟨q, hq, hlease, hopen⟩ := ho
  by_cases hik : i = k
  · subst hik
    rw [h.found] at hq
    cases hq
    obtain rfl := Option.some.inj (h.held.symm.trans hlease)
    obtain hne | ⟨hheld, hopen'⟩ := hne
    · exact absurd rfl hne
    · exact ⟨r', (h.runs i).trans (if_pos rfl), hheld, hopen'⟩
  · exact ⟨q, (h.runs i).trans ((if_neg hik).trans hq), hlease, hopen⟩

theorem sound (h : OwnerChange rows rows' k lease r r' w w') {outbox outbox' : List SealFact}
    (hs : rows.Sound outbox) (hsub : ∀ f ∈ outbox, f ∈ outbox')
    (hids : ∀ f ∈ outbox', ∀ g ∈ outbox', f.factId = g.factId → f = g)
    (hrequested : ∀ factId, r'.outputSealId = some factId →
      ∃ f ∈ outbox', f.factId = factId ∧ r'.leaseId = some f.writer)
    (howned : r'.outputSealedAt = true → r'.leaseId = some lease)
    (hunsealed : r'.leaseId = some lease → r'.outputSealedAt = false → w'.writerSealOffset = none)
    (hordered : r'.outputSealedAt = true → ∃ y, r'.outputSealOffset = some y ∧
      ∀ d, w'.writerSealOffset = some d → y ≤ d) : rows'.Sound outbox' where
  leased := by
    intro j q l hq hl
    rw [h.leases]
    split
    · exact ⟨w', rfl⟩
    · rename_i hne
      obtain ⟨rfl, rfl⟩ | ⟨-, hq⟩ := h.get_run hq
      · obtain hheld | hnone := h.holds
        · exact absurd (Option.some.inj (hl.symm.trans hheld)) hne
        · rw [hnone] at hl
          cases hl
      · exact hs.leased hq hl
  unique := by
    intro i j q p l hq hp hql hpl
    have hheld : ∀ {m}, r'.leaseId = some m → m = lease := by
      intro m hm
      obtain hheld | hnone := h.holds
      · exact Option.some.inj (hm.symm.trans hheld)
      · rw [hnone] at hm
        cases hm
    obtain ⟨hi, rfl⟩ | ⟨hi, hq⟩ := h.get_run hq <;> obtain ⟨hj, rfl⟩ | ⟨hj, hp⟩ := h.get_run hp
    · rw [hi, hj]
    · obtain rfl := hheld hql
      exact absurd (hs.unique hp h.found hpl h.held) hj
    · obtain rfl := hheld hpl
      exact absurd (hs.unique hq h.found hql h.held) hi
    · exact hs.unique hq hp hql hpl
  requested := by
    intro j q factId hq hid
    obtain ⟨-, rfl⟩ | ⟨-, hq⟩ := h.get_run hq
    · exact hrequested factId hid
    · obtain ⟨f, hf, heq⟩ := hs.requested hq hid
      exact ⟨f, hsub f hf, heq⟩
  ids := hids
  owned := by
    intro j q hq hsealed
    obtain ⟨-, rfl⟩ | ⟨-, hq⟩ := h.get_run hq
    · rw [howned hsealed]
      rfl
    · exact hs.owned hq hsealed
  unsealed := by
    intro j q l x hq hl hopen hx
    obtain ⟨-, rfl⟩ | ⟨hj, hq⟩ := h.get_run hq <;> obtain ⟨rfl, rfl⟩ | ⟨hne, hx⟩ := h.get_lease hx
    · exact hunsealed hl hopen
    · obtain hheld | hnone := h.holds
      · exact absurd (Option.some.inj (hl.symm.trans hheld)) hne
      · rw [hnone] at hl
        cases hl
    · exact absurd (hs.unique hq h.found hl h.held) hj
    · exact hs.unsealed hq hl hopen hx
  ordered := by
    intro j q l hq hl hsealed
    obtain ⟨-, rfl⟩ | ⟨hj, hq⟩ := h.get_run hq
    · obtain ⟨y, hy, hle⟩ := hordered hsealed
      obtain rfl := Option.some.inj ((howned hsealed).symm.trans hl)
      refine ⟨y, hy, fun x d hx hd => ?_⟩
      obtain ⟨-, rfl⟩ | ⟨hne, -⟩ := h.get_lease hx
      · exact hle d hd
      · exact absurd rfl hne
    · obtain ⟨y, hy, hle⟩ := hs.ordered hq hl hsealed
      refine ⟨y, hy, fun x d hx hd => ?_⟩
      obtain ⟨rfl, -⟩ | ⟨-, hx⟩ := h.get_lease hx
      · exact absurd (hs.unique hq h.found hl h.held) hj
      · exact hle x d hx hd

end OwnerChange

/-- Closures lie below the projected offsets. -/
structure Rows.Behind (rows : Rows) (projected : Nat → Nat) : Prop where
  writers : ∀ {lease w d}, rows.leases.get lease = some w → w.writerSealOffset = some d →
    d < projected w.partition
  runs : ∀ {k r lease w y}, rows.runs.get k = some r → r.leaseId = some lease →
    r.outputSealedAt = true → r.outputSealOffset = some y → rows.leases.get lease = some w →
    y < projected w.partition

theorem Rows.Behind.mono {rows : Rows} {projected projected' : Nat → Nat}
    (h : rows.Behind projected) (hmono : ∀ partition, projected partition ≤ projected' partition) :
    rows.Behind projected' where
  writers := by
    intro lease w d hw hd
    have := h.writers hw hd
    have := hmono w.partition
    omega
  runs := by
    intro k r lease w y hr hl hs hy hw
    have := h.runs hr hl hs hy hw
    have := hmono w.partition
    omega

theorem OwnerChange.behind {rows rows' : Rows} {k lease : Nat} {r r' : RunRow} {w w' : Writer}
    (h : OwnerChange rows rows' k lease r r' w w') {projected : Nat → Nat}
    (hb : rows.Behind projected) (hw' : ∀ d, w'.writerSealOffset = some d → d < projected w.partition)
    (hr' : ∀ y, r'.outputSealedAt = true → r'.outputSealOffset = some y → y < projected w.partition) :
    rows'.Behind projected where
  writers := by
    intro l x d hx hd
    obtain ⟨-, rfl⟩ | ⟨-, hx⟩ := h.get_lease hx
    · rw [h.partition]
      exact hw' d hd
    · exact hb.writers hx hd
  runs := by
    intro j q l x y hq hl hs hy hx
    obtain ⟨-, rfl⟩ | ⟨-, hq⟩ := h.get_run hq <;> obtain ⟨heq, rfl⟩ | ⟨hne, hx⟩ := h.get_lease hx
    · rw [h.partition]
      exact hr' y hs hy
    · obtain hheld | hnone := h.holds
      · exact absurd (Option.some.inj (hl.symm.trans hheld)) hne
      · rw [hnone] at hl
        cases hl
    · rw [h.partition]
      exact hb.runs hq hl hs hy (heq ▸ h.writer)
    · exact hb.runs hq hl hs hy hx

/-! ## What the projections commit -/

namespace Rows

variable {rows rows' : Rows} {outbox : List SealFact} {r : RunRow} {w : Writer}

theorem get_sealWriter {writer : Nat} {offset : Int} (hw : rows.leases.get writer = some w) (j : Nat) :
    (rows.sealWriter writer offset).leases.get j =
      if j = writer then some { w with writerSealOffset := some (w.writerSealOffset.getD offset) }
      else rows.leases.get j :=
  Table.get_modify_of_get hw _ j

theorem unchanged {ρ : Type} {t : Table Nat ρ} {k : Nat} {x : ρ} (h : t.get k = some x) (j : Nat) :
    t.get j = if j = k then some x else t.get j := by
  split
  · rename_i heq
    rw [heq, h]
  · rfl

theorem sealRun_spec (hs : rows.Sound outbox) {fact : SealFact} (hin : fact ∈ outbox)
    {partition offset : Nat} (hr : rows.runs.get fact.run = some r)
    (hw : rows.leases.get fact.writer = some w)
    (hwriter : ∀ d, w.writerSealOffset = some d → d ≤ offset)
    (hrun : ∀ y, r.leaseId = some fact.writer → r.outputSealedAt = true →
      r.outputSealOffset = some y → y ≤ offset)
    (h : rows.sealRun fact partition offset = some rows') :
    (rows' = rows ∧ r.leaseId ≠ some fact.writer ∧ w.writerSealOffset.isSome = true) ∨
      ∃ r', OwnerChange rows rows' fact.run fact.writer r r' w
          { w with writerSealOffset := some (w.writerSealOffset.getD offset) } ∧
        rows'.Sound outbox ∧ (r'.leaseId = some fact.writer → r'.outputSealedAt = true) ∧
        ∀ y, r'.outputSealedAt = true → r'.outputSealOffset = some y → y ≤ offset := by
  unfold Rows.sealRun at h
  rw [Rows.owner_eq.mpr ⟨hr, hw⟩] at h
  dsimp only at h
  split at h
  · rename_i hpassed
    cases h
    simp only [ne_eq, Bool.and_eq_true, decide_eq_true_eq] at hpassed
    exact .inl ⟨rfl, hpassed⟩
  right
  split at h
  · cases h
  rename_i hid
  rw [not_not] at hid
  have hlease : r.leaseId = some fact.writer := by
    obtain ⟨f, hf, heq, hl⟩ := hs.requested hr hid
    rw [hl, hs.ids f hf fact hin heq]
  have hkept : ∀ d, w.writerSealOffset = some d → some (w.writerSealOffset.getD (offset : Int)) = some d := by
    intro d hd
    rw [hd, Option.getD_some]
  have hbound : w.writerSealOffset.getD (offset : Int) ≤ offset := by
    cases hd : w.writerSealOffset with
    | none => exact Int.le_refl _
    | some d => exact hwriter d hd
  split at h
  · rename_i hsealed
    cases h
    have hchange : OwnerChange rows (rows.sealWriter fact.writer offset) fact.run fact.writer r r w
        { w with writerSealOffset := some (w.writerSealOffset.getD offset) } :=
      ⟨hr, hlease, hw, unchanged hr, get_sealWriter hw, rfl, hkept, .inl hlease,
        fun h => ⟨rfl, h, rfl⟩⟩
    refine ⟨r, hchange, ?_, fun _ => hsealed, fun y hs hy => hrun y hlease hs hy⟩
    refine hchange.sound hs (fun _ => id) hs.ids (fun _ => hs.requested hr) (fun _ => hlease) ?_ ?_
    · intro _ hopen
      rw [hsealed] at hopen
      cases hopen
    · intro _
      obtain ⟨y, hy, hle⟩ := hs.ordered hr hlease hsealed
      refine ⟨y, hy, fun d hd => ?_⟩
      cases hd
      cases hd : w.writerSealOffset with
      | none => exact hrun y hlease hsealed hy
      | some d => exact hle w d hw hd
  rename_i hopen
  rw [Bool.not_eq_true] at hopen
  have hnone := hs.unsealed hr hlease hopen hw
  split at h
  · split at h
    · cases h
    cases h
    have hchange : OwnerChange rows ((rows.sealWriter fact.writer offset).setRun fact.run { r with
          leaseId := none, outputSealId := none, outputSealedAt := false
          outputSealOffset := none, outputFirst := none }) fact.run fact.writer r _ w
        { w with writerSealOffset := some (w.writerSealOffset.getD offset) } :=
      ⟨hr, hlease, hw, fun j => Table.get_set .., get_sealWriter hw, rfl, hkept, .inr rfl,
        fun h => absurd h (by rw [hopen]; exact Bool.false_ne_true)⟩
    exact ⟨_, hchange, hchange.sound hs (fun _ => id) hs.ids nofun nofun nofun nofun, nofun, nofun⟩
  · cases h
    have hchange : OwnerChange rows ((rows.sealWriter fact.writer offset).setRun fact.run { r with
          outputSealedAt := true, outputSealOffset := some offset
          outputFirst := some (r.outputFirst.getD (partition, offset)) }) fact.run fact.writer r _ w
        { w with writerSealOffset := some (w.writerSealOffset.getD offset) } :=
      ⟨hr, hlease, hw, fun j => Table.get_set .., get_sealWriter hw, rfl, hkept, .inl hlease,
        fun h => absurd h (by rw [hopen]; exact Bool.false_ne_true)⟩
    refine ⟨_, hchange, ?_, fun _ => rfl, ?_⟩
    · have hrequested : ∀ factId, r.outputSealId = some factId →
      ∃ f ∈ outbox, f.factId = factId ∧ r.leaseId = some f.writer := fun _ => hs.requested hr
      refine hchange.sound hs (fun _ => id) hs.ids hrequested (fun _ => hlease)
        (fun _ hopen => ?_) (fun _ => ⟨offset, rfl, fun d hd => ?_⟩)
      · cases hopen
      · cases hd
        exact Int.le_of_eq (by rw [hnone, Option.getD_none])
    · intro y _ hy
      cases hy
      exact Int.le_refl _

theorem finishWork_spec (hs : rows.Sound outbox) {run writer partition offset : Nat}
    {rootClosed writerClosed : Option Int} (hr : rows.runs.get run = some r)
    (hw : rows.leases.get writer = some w)
    (h : rows.finishWork run writer partition offset = some (rows', rootClosed, writerClosed)) :
    (rows' = rows ∧ writerClosed = w.writerSealOffset ∧ ∀ y, rootClosed = some y →
        r.leaseId = some writer ∧ r.outputSealedAt = true ∧ r.outputSealOffset = some y) ∨
      ∃ r' w', OwnerChange rows rows' run writer r r' w w' ∧ rows'.Sound outbox ∧
        r'.leaseId = some writer ∧ r'.outputSealedAt = true ∧
        r'.outputSealOffset = some (offset : Int) ∧ rootClosed = some (offset : Int) ∧
        w'.writerSealOffset = writerClosed ∧ ∀ d, writerClosed = some d → d = offset := by
  unfold Rows.finishWork at h
  rw [Rows.owner_eq.mpr ⟨hr, hw⟩] at h
  dsimp only at h
  split at h
  · split at h
    · cases h
    · cases h
      exact .inl ⟨rfl, rfl, nofun⟩
  rename_i hown
  simp only [ne_eq, Bool.or_eq_true, decide_eq_true_eq, not_or, not_not] at hown
  have hlease := hown.1
  split at h
  · rename_i hsealed
    cases h
    exact .inl ⟨rfl, rfl, fun y hy => ⟨hlease, hsealed, hy⟩⟩
  rename_i hopen
  rw [Bool.not_eq_true] at hopen
  have hnone := hs.unsealed hr hlease hopen hw
  split at h
  · cases h
    exact .inl ⟨rfl, rfl, nofun⟩
  right
  have hrequested : ∀ factId, r.outputSealId = some factId →
      ∃ f ∈ outbox, f.factId = factId ∧ r.leaseId = some f.writer := fun _ => hs.requested hr
  split at h
  · cases h
    have hchange : OwnerChange rows (rows.setRun run { r with
          terminal := true, outputSealedAt := true, outputSealOffset := some (offset : Int)
          outputFirst := some (r.outputFirst.getD (partition, offset)) }) run writer r _ w w :=
      ⟨hr, hlease, hw, fun j => Table.get_set .., unchanged hw, rfl, fun _ => id, .inl hlease,
        fun h => absurd h (by rw [hopen]; exact Bool.false_ne_true)⟩
    refine ⟨_, w, hchange, ?_, hlease, rfl, rfl, rfl, rfl, fun d hd => ?_⟩
    · refine hchange.sound hs (fun _ => id) hs.ids hrequested (fun _ => hlease)
        (fun _ hopen => ?_) (fun _ => ⟨offset, rfl, fun d hd => ?_⟩)
      · cases hopen
      · rw [hnone] at hd
        cases hd
    · rw [hnone] at hd
      cases hd
  · cases h
    have hw' : (rows.setRun run { r with
          terminal := true, outputSealedAt := true, outputSealOffset := some (offset : Int)
          outputFirst := some (r.outputFirst.getD (partition, offset)) }).leases.get writer = some w := hw
    have hkept : ∀ d, w.writerSealOffset = some d →
        some (w.writerSealOffset.getD (offset : Int)) = some d := by
      intro d hd
      rw [hnone] at hd
      cases hd
    have hchange : OwnerChange rows ((rows.setRun run { r with
          terminal := true, outputSealedAt := true, outputSealOffset := some (offset : Int)
          outputFirst := some (r.outputFirst.getD (partition, offset)) }).sealWriter writer offset)
        run writer r _ w { w with writerSealOffset := some (w.writerSealOffset.getD offset) } :=
      ⟨hr, hlease, hw, fun j => Table.get_set .., get_sealWriter hw', rfl,
        hkept, .inl hlease,
        fun h => absurd h (by rw [hopen]; exact Bool.false_ne_true)⟩
    refine ⟨_, _, hchange, ?_, hlease, rfl, rfl, rfl, ?_, fun d hd => (Option.some.inj hd).symm⟩
    · refine hchange.sound hs (fun _ => id) hs.ids hrequested (fun _ => hlease)
        (fun _ hopen => ?_) (fun _ => ⟨offset, rfl, fun d hd => ?_⟩)
      · cases hopen
      · cases hd
        exact Int.le_of_eq (by rw [hnone, Option.getD_none])
    · rw [hnone, Option.getD_none]

end Rows

/-! ## Every operation -/

namespace Projector

structure Sound (p : Projector) : Prop where
  rows : p.rows.Sound p.outbox
  boundary : p.boundary.Sound p.rows p.position
  behind : p.rows.Behind p.projected
  published : ∀ partition, ∀ fact ∈ p.log partition, fact.requestedIn p.outbox = true ∧
    ∃ r w, p.rows.owner fact.run fact.writer = some (r, w) ∧ w.partition = partition
  /-- a seal that was projected has closed its writer -/
  replayed : ∀ partition i f, i < p.projected partition → (p.log partition)[i]? = some (.sealing f) →
    ∃ w d, p.rows.leases.get f.writer = some w ∧ w.writerSealOffset = some d ∧ d ≤ i
  read : ∀ partition, p.position partition ≤ p.projected partition
  logged : ∀ partition, p.projected partition ≤ (p.log partition).length

variable {p : Projector}

theorem Sound.published_later (h : p.Sound) {rows' : Rows} (hl : p.rows.Later rows') {partition : Nat}
    {fact : Fact} (hf : fact ∈ p.log partition) :
    ∃ r w, rows'.owner fact.run fact.writer = some (r, w) ∧ w.partition = partition := by
  obtain ⟨-, r, w, howner, hpart⟩ := h.published partition fact hf
  obtain ⟨hr, hw⟩ := Rows.owner_eq.mp howner
  obtain ⟨r', hr', -⟩ := hl.runs hr
  obtain ⟨w', hw', hpart', -⟩ := hl.leases hw
  exact ⟨r', w', Rows.owner_eq.mpr ⟨hr', hw'⟩, hpart'.trans hpart⟩

theorem Sound.replayed_later (h : p.Sound) {rows' : Rows} (hl : p.rows.Later rows')
    {partition i : Nat} {f : SealFact} (hi : i < p.projected partition)
    (hf : (p.log partition)[i]? = some (.sealing f)) :
    ∃ w d, rows'.leases.get f.writer = some w ∧ w.writerSealOffset = some d ∧ d ≤ i := by
  obtain ⟨w, d, hw, hd, hle⟩ := h.replayed partition i f hi hf
  obtain ⟨w', hw', -, hkept⟩ := hl.leases hw
  exact ⟨w', d, hw', hkept d hd, hle⟩

theorem Sound.commit (h : p.Sound) {rows' : Rows} {outbox' : List SealFact}
    (hs : rows'.Sound outbox') (hl : p.rows.Later rows') (hb : rows'.Behind p.projected)
    (hsub : ∀ f ∈ p.outbox, f ∈ outbox') (ho : ∀ {j k}, Opened p.rows j k → Opened rows' j k) :
    Sound { p with rows := rows', outbox := outbox' } where
  rows := hs
  boundary := h.boundary.later hl (fun _ => Nat.le_refl _) ho
  behind := hb
  published partition fact hf := by
    refine ⟨?_, h.published_later hl hf⟩
    have hreq := (h.published partition fact hf).1
    cases fact with
    | output run writer => rfl
    | sealing f => exact decide_eq_true (hsub f (of_decide_eq_true hreq))
    | workFinished run writer => rfl
  replayed _ _ _ := h.replayed_later hl
  read := h.read
  logged := h.logged

theorem Sound.advance (h : p.Sound) {partition : Nat} {rows' : Rows} {b : Boundary} {fact : Fact}
    (hfact : (p.log partition)[p.position partition]? = some fact)
    (hs : rows'.Sound p.outbox) (hl : p.rows.Later rows')
    (hb : rows'.Behind (p.advance partition rows' b).projected)
    (hboundary : b.Sound rows' (p.advance partition rows' b).position)
    (hclosed : ∀ f, fact = .sealing f → ∃ w d, rows'.leases.get f.writer = some w ∧
      w.writerSealOffset = some d ∧ d ≤ (p.position partition : Int)) :
    (p.advance partition rows' b).Sound where
  rows := hs
  boundary := hboundary
  behind := hb
  published j x hx := ⟨(h.published j x hx).1, h.published_later hl hx⟩
  replayed := by
    intro j i f hi hf
    by_cases hold : i < p.projected j
    · exact h.replayed_later hl hold hf
    · have hread := h.read j
      unfold Projector.advance at hi
      dsimp only at hi
      rw [Function.update_apply] at hi
      split at hi
      · rename_i hj
        subst hj
        obtain rfl : i = p.position j := by omega
        exact hclosed f (Option.some.inj (hfact.symm.trans hf))
      · exact absurd hi hold
  read := by
    intro j
    have hread := h.read j
    unfold Projector.advance
    dsimp only
    rw [Function.update_apply, Function.update_apply]
    split
    · exact Nat.le_max_right ..
    · exact hread
  logged := by
    intro j
    have hlogged := h.logged j
    unfold Projector.advance
    dsimp only
    rw [Function.update_apply]
    split
    · rename_i hj
      subst hj
      have := (List.getElem?_eq_some_iff.mp hfact).1
      omega
    · exact hlogged

theorem position_advance (partition : Nat) (rows : Rows) (b : Boundary) (j : Nat) :
    p.position j ≤ (p.advance partition rows b).position j := by
  unfold Projector.advance
  dsimp only
  rw [Function.update_apply]
  split
  · rename_i hj
    rw [hj]
    omega
  · exact Nat.le_refl _

theorem projected_advance (partition : Nat) (rows : Rows) (b : Boundary) (j : Nat) :
    p.projected j ≤ (p.advance partition rows b).projected j := by
  unfold Projector.advance
  dsimp only
  rw [Function.update_apply]
  split
  · rename_i hj
    rw [hj]
    exact Nat.le_max_left ..
  · exact Nat.le_refl _

theorem lt_position_advance (partition : Nat) (rows : Rows) (b : Boundary) :
    p.position partition < (p.advance partition rows b).position partition := by
  unfold Projector.advance
  dsimp only
  rw [Function.update_self]
  omega

theorem lt_projected_advance (partition : Nat) (rows : Rows) (b : Boundary) :
    p.position partition < (p.advance partition rows b).projected partition := by
  unfold Projector.advance
  dsimp only
  rw [Function.update_self]
  omega

theorem later_refl (rows : Rows) : rows.Later rows where
  leases {_ w} hw := ⟨w, hw, rfl, fun _ => id⟩
  runs {_ r} hr := ⟨r, hr, fun hs => ⟨rfl, hs, rfl⟩, fun _ _ _ => id⟩

theorem opened_of_isOpen (h : p.Sound) {record : Record}
    (hopen : (p.boundary.isOpen p.rows record true).1 = .ok true) :
    Opened p.rows record.writer record.run := by
  have hrows : Boundary.durable p.rows record true = .ok true ∨
      Boundary.durable p.rows record true = .error .prefixMissing := by
    obtain heq | ⟨-, -, hfloor⟩ | ⟨hcanon, -⟩ := @agrees _ _ _ _ record true h.rows h.boundary
    · rw [Boundary.isOpen_empty] at heq
      exact .inl (heq ▸ hopen)
    · exact .inr (Boundary.isOpen_empty .. ▸ hfloor)
    · cases hcanon
  unfold Boundary.durable at hrows
  split at hrows
  · rcases hrows with hrows | hrows <;> cases hrows
  · rename_i r w hrow
    split at hrows
    · split at hrows <;> rcases hrows with hrows | hrows <;> cases hrows
    · rename_i hlease
      split at hrows
      · rcases hrows with hrows | hrows <;> cases hrows
      · split at hrows
        · rcases hrows with hrows | hrows <;> cases hrows
        · rename_i hsealed
          exact ⟨r, (Rows.owner_eq.mp hrow).1, not_not.mp hlease, Bool.not_eq_true _ ▸ hsealed⟩

theorem Sound.closed_before (h : p.Sound) {partition : Nat} {f : SealFact} {r : RunRow} {w : Writer}
    (hfact : (p.log partition)[p.position partition]? = some (.sealing f))
    (hr : p.rows.runs.get f.run = some r) (hw : p.rows.leases.get f.writer = some w)
    (hpart : w.partition = partition) :
    (∀ d, w.writerSealOffset = some d → d ≤ (p.position partition : Int)) ∧
      ∀ y, r.leaseId = some f.writer → r.outputSealedAt = true → r.outputSealOffset = some y →
        y ≤ (p.position partition : Int) := by
  by_cases hold : p.position partition < p.projected partition
  · obtain ⟨x, d, hx, hd, hle⟩ := h.replayed partition _ f hold hfact
    rw [hw] at hx
    cases hx
    refine ⟨fun d' hd' => ?_, fun y hlease hsealed hy => ?_⟩
    · rw [hd] at hd'
      cases hd'
      exact hle
    · obtain ⟨y', hy', hord⟩ := h.rows.ordered hr hlease hsealed
      rw [hy] at hy'
      cases hy'
      exact Int.le_trans (hord w d hw hd) hle
  · have hread := h.read partition
    refine ⟨fun d hd => ?_, fun y hlease hsealed hy => ?_⟩
    · have := h.behind.writers hw hd
      rw [hpart] at this
      omega
    · have := h.behind.runs hr hlease hsealed hy hw
      rw [hpart] at this
      omega

theorem anchor_change {rows : Rows} {run writer partition offset : Nat} {r : RunRow} {w : Writer}
    (hr : rows.runs.get run = some r) (hlease : r.leaseId = some writer)
    (hw : rows.leases.get writer = some w) : OwnerChange rows (rows.anchor run partition offset) run
      writer r { r with outputFirst := some (r.outputFirst.getD (partition, offset)) } w w := by
  unfold Rows.anchor
  rw [hr]
  exact ⟨hr, hlease, hw, fun j => Table.get_set .., Rows.unchanged hw, rfl, fun _ => id, .inl hlease,
    fun hs => ⟨rfl, hs, rfl⟩⟩

theorem Sound.projectOutput (h : p.Sound) {partition run writer : Nat} {p' : Projector}
    (hfact : (p.log partition)[p.position partition]? = some (.output run writer))
    (hp : p.projectOutput run writer partition = some p') : p'.Sound := by
  obtain ⟨-, r, w, howner, -⟩ := h.published partition _ (List.mem_of_getElem? hfact)
  have howner : p.rows.owner run writer = some (r, w) := howner
  have hb := h.boundary.isOpen { run, writer, partition, offset := p.position partition } true
    (by rw [howner]; rfl)
  unfold Projector.projectOutput at hp
  dsimp only at hp
  split at hp
  · cases hp
  · rename_i b heq
    cases hp
    rw [heq] at hb
    refine h.advance hfact h.rows (later_refl _) (h.behind.mono (projected_advance _ _ _)) ?_ nofun
    exact hb.later (later_refl _) (position_advance _ _ _) id
  · rename_i b heq
    cases hp
    obtain ⟨q, hq, hlease, hopen⟩ := opened_of_isOpen h (congrArg Prod.fst heq)
    rw [heq] at hb
    obtain ⟨x, hx⟩ := h.rows.leased hq hlease
    have hchange : OwnerChange p.rows (p.rows.anchor run partition (p.position partition)) run writer q
        _ x x := anchor_change hq hlease hx
    have hrequested : ∀ factId, q.outputSealId = some factId →
        ∃ f ∈ p.outbox, f.factId = factId ∧ q.leaseId = some f.writer := fun _ => h.rows.requested hq
    refine h.advance hfact ?_ hchange.later ?_ ?_ nofun
    · refine hchange.sound h.rows (fun _ => id) h.rows.ids hrequested (fun _ => hlease)
        (fun _ _ => h.rows.unsealed hq hlease hopen hx) (fun hs => ?_)
      rw [show q.outputSealedAt = true from hs] at hopen
      cases hopen
    · refine hchange.behind (h.behind.mono (projected_advance _ _ _))
        (fun d hd => (h.behind.mono (projected_advance _ _ _)).writers hx hd) fun y hs => ?_
      rw [show q.outputSealedAt = true from hs] at hopen
      cases hopen
    · exact hb.later hchange.later (position_advance _ _ _) fun ho => hchange.opened ho (.inr ⟨hlease, hopen⟩)

theorem Sound.projectSeal (h : p.Sound) {partition : Nat} {fact : SealFact} {p' : Projector}
    (hfact : (p.log partition)[p.position partition]? = some (.sealing fact))
    (hp : p.projectSeal fact partition = some p') : p'.Sound := by
  obtain ⟨hreq, r, w, howner, hpart⟩ := h.published partition _ (List.mem_of_getElem? hfact)
  have howner : p.rows.owner fact.run fact.writer = some (r, w) := howner
  have hin : fact ∈ p.outbox := of_decide_eq_true hreq
  obtain ⟨hr, hw⟩ := Rows.owner_eq.mp howner
  have hb := h.boundary.isOpen
    { run := fact.run, writer := fact.writer, partition, offset := p.position partition } true
    (by rw [howner]; rfl)
  unfold Projector.projectSeal at hp
  dsimp only at hp
  split at hp
  · cases hp
  rename_i open_ b heq
  rw [heq] at hb
  obtain ⟨rows', hrows', hp⟩ := bind_some hp
  cases hp
  obtain ⟨hwriter, hrun⟩ := h.closed_before hfact hr hw hpart
  have hat := lt_position_advance (p := p) partition rows'
    ((b.close fact.run fact.writer (p.position partition)).closeWriter fact.writer (p.position partition))
  have hbehind := h.behind.mono (projected_advance (p := p) partition rows'
    ((b.close fact.run fact.writer (p.position partition)).closeWriter fact.writer (p.position partition)))
  have hnew := lt_projected_advance (p := p) partition rows'
    ((b.close fact.run fact.writer (p.position partition)).closeWriter fact.writer (p.position partition))
  obtain ⟨rfl, hleft, hclosed⟩ | ⟨r', hchange, hs', hsealed, hbound⟩ :=
    Rows.sealRun_spec h.rows hin hr hw hwriter hrun hrows'
  · obtain ⟨d, hd⟩ := Option.isSome_iff_exists.mp hclosed
    refine h.advance hfact h.rows (later_refl _) hbehind ?_ ?_
    · refine Boundary.Sound.closeWriter (d := d) ?_ hw hd (hwriter d hd)
      refine hb.close (Boundary.Tombstone.later (later_refl _) (position_advance _ _ _))
        (fun hj hd => ⟨_, hj, hd⟩) (fun ho _ => ho) ⟨r, w, howner, .inr ⟨hclosed, ?_, ?_⟩⟩
      · rw [hpart]
        omega
      · exact fun hheld => absurd hheld hleft
    · intro f hf
      cases hf
      exact ⟨w, d, hw, hd, hwriter d hd⟩
  · have hle : w.writerSealOffset.getD (p.position partition : Int) ≤ p.position partition := by
      cases hd : w.writerSealOffset with
      | none => exact Int.le_refl _
      | some d => exact hwriter d hd
    have hw' := (hchange.leases fact.writer).trans (if_pos rfl)
    have hr' := (hchange.runs fact.run).trans (if_pos rfl)
    refine h.advance hfact hs' hchange.later ?_ ?_ ?_
    · refine hchange.behind hbehind (fun d hd => ?_) (fun y hs hy => ?_)
      · cases hd
        rw [hpart]
        omega
      · have := hbound y hs hy
        rw [hpart]
        omega
    · refine Boundary.Sound.closeWriter ?_ hw' rfl hle
      refine hb.close (Boundary.Tombstone.later hchange.later (position_advance _ _ _))
        (fun hj hd => ?_) (fun ho hne => hchange.opened ho (.inl hne))
        ⟨r', _, Rows.owner_eq.mpr ⟨hr', hw'⟩, .inr ⟨rfl, ?_, fun hheld => ⟨hsealed hheld, ?_⟩⟩⟩
      · obtain ⟨x, hx, -, hkept⟩ := hchange.later.leases hj
        exact ⟨x, hx, hkept _ hd⟩
      · dsimp only
        rw [hpart]
        omega
      · cases hy : r'.outputSealOffset with
        | none =>
          rw [Option.getD_none]
          omega
        | some y => exact hbound y (hsealed hheld) hy
    · intro f hf
      cases hf
      exact ⟨_, _, hw', rfl, hle⟩

theorem closeBoth_sound (h : p.boundary.Sound p.rows p.position) {rows' : Rows}
    {position' : Nat → Nat} {run writer : Nat} {rootClosed writerClosed : Option Int}
    (hl : p.rows.Later rows') (hpos : ∀ partition, p.position partition ≤ position' partition)
    (hroot : ∀ y, rootClosed = some y → Tombstone rows' position' writer run y)
    (hopened : ∀ {j k}, Opened p.rows j k → rootClosed = none ∨ (j, k) ≠ (writer, run) →
      Opened rows' j k)
    (hwriter : ∀ d, writerClosed = some d → ∃ w, rows'.leases.get writer = some w ∧
      w.writerSealOffset = some d) :
    (p.closeBoth run writer rootClosed writerClosed).Sound rows' position' := by
  have hlast : ∀ {b : Boundary}, b.Sound rows' position' → ∀ d, writerClosed = some d →
      (b.closeWriter writer d).Sound rows' position' := by
    intro b hb d hclosed
    obtain ⟨w, hw, hd⟩ := hwriter d hclosed
    exact hb.closeWriter hw hd (Int.le_refl _)
  unfold Projector.closeBoth
  cases rootClosed with
  | none =>
    have hb := h.later hl hpos fun ho => hopened ho (.inl rfl)
    dsimp only
    split
    · exact hb
    · exact hlast hb _ rfl
  | some cutoff =>
    have hb : (p.boundary.close run writer cutoff).Sound rows' position' := by
      refine h.close (Boundary.Tombstone.later hl hpos) (fun hj hd => ?_)
        (fun ho hne => hopened ho (.inr hne)) (hroot _ rfl)
      obtain ⟨w', hw', -, hkept⟩ := hl.leases hj
      exact ⟨w', hw', hkept _ hd⟩
    dsimp only
    split
    · exact hb
    · exact hlast hb _ rfl

theorem Sound.projectWork (h : p.Sound) {partition run writer : Nat} {p' : Projector}
    (hfact : (p.log partition)[p.position partition]? = some (.workFinished run writer))
    (hp : p.projectWork run writer partition = some p') : p'.Sound := by
  obtain ⟨-, r, w, howner, hpart⟩ := h.published partition _ (List.mem_of_getElem? hfact)
  have howner : p.rows.owner run writer = some (r, w) := howner
  obtain ⟨hr, hw⟩ := Rows.owner_eq.mp howner
  unfold Projector.projectWork at hp
  obtain ⟨⟨rows', rootClosed, writerClosed⟩, hfinish, hp⟩ := bind_some hp
  cases hp
  have hnew := lt_projected_advance (p := p) partition rows'
    (p.closeBoth run writer rootClosed writerClosed)
  obtain ⟨rfl, hwriter, hroot⟩ | ⟨r', w', hchange, hs', hlease, hsealed, hoffset, rfl, hw', hd⟩ :=
    Rows.finishWork_spec h.rows hr hw hfinish
  · refine h.advance hfact h.rows (later_refl _) (h.behind.mono (projected_advance _ _ _)) ?_ nofun
    refine closeBoth_sound h.boundary (later_refl _) (position_advance _ _ _) ?_
      (fun ho _ => ho) ?_
    · intro y hy
      obtain ⟨hlease, hsealed, hoffset⟩ := hroot y hy
      exact ⟨r, w, howner, .inl ⟨hlease, hsealed, by rw [hoffset, Option.getD_some]⟩⟩
    · intro d hd
      exact ⟨w, hw, hwriter ▸ hd⟩
  · refine h.advance hfact hs' hchange.later ?_ ?_ nofun
    · refine hchange.behind (h.behind.mono (projected_advance _ _ _)) ?_ ?_
      · intro d hd'
        obtain rfl := hd d (hw' ▸ hd')
        rw [hpart]
        omega
      · intro y _ hy
        rw [hoffset] at hy
        cases hy
        rw [hpart]
        omega
    · refine closeBoth_sound h.boundary hchange.later (position_advance _ _ _) ?_ ?_ ?_
      · intro y hy
        cases hy
        refine ⟨r', w', Rows.owner_eq.mpr ⟨?_, ?_⟩, .inl ⟨hlease, hsealed, ?_⟩⟩
        · exact (hchange.runs run).trans (if_pos rfl)
        · exact (hchange.leases writer).trans (if_pos rfl)
        · rw [hoffset, Option.getD_some]
      · intro j k ho hne
        obtain hnone | hne := hne
        · cases hnone
        · exact hchange.opened ho (.inl hne)
      · intro d hd'
        exact ⟨w', (hchange.leases writer).trans (if_pos rfl), hw'.trans hd'⟩

theorem Sound.project (h : p.Sound) {partition : Nat} {p' : Projector}
    (hp : p.project partition = some p') : p'.Sound := by
  unfold Projector.project at hp
  obtain ⟨fact, hfact, hp⟩ := bind_some hp
  cases fact with
  | output run writer => exact h.projectOutput hfact hp
  | sealing fact => exact h.projectSeal hfact hp
  | workFinished run writer => exact h.projectWork hfact hp

theorem Sound.startAdmittedRun (h : p.Sound) {run writer partition : Nat} {p' : Projector}
    (hp : p.startAdmittedRun run writer partition = some p') : p'.Sound := by
  unfold Projector.startAdmittedRun at hp
  obtain ⟨r, hr, hp⟩ := bind_some hp
  obtain ⟨hg, hp⟩ := guard_some hp
  cases hp
  simp only [Bool.and_eq_true, Option.isNone_iff_eq_none] at hg
  obtain ⟨⟨hfree, -⟩, hfresh⟩ := hg
  have hunused : ∀ {k q}, p.rows.runs.get k = some q → q.leaseId ≠ some writer := by
    intro k q hq hl
    obtain ⟨w, hw⟩ := h.rows.leased hq hl
    rw [hfresh] at hw
    cases hw
  have hopen : r.outputSealedAt = false := by
    refine Bool.eq_false_iff.mpr fun hs => ?_
    have := h.rows.owned hr hs
    rw [hfree] at this
    cases this
  have hrun : ∀ {k q}, (p.rows.runs.set run { r with leaseId := some writer }).get k = some q →
      k = run ∧ q = { r with leaseId := some writer } ∨ k ≠ run ∧ p.rows.runs.get k = some q := by
    intro k q hq
    rw [Table.get_set] at hq
    split at hq
    · rename_i heq
      cases hq
      exact .inl ⟨heq, rfl⟩
    · rename_i hne
      exact .inr ⟨hne, hq⟩
  have hlease : ∀ {l x}, (p.rows.leases.set writer { partition }).get l = some x →
      l = writer ∧ x = { partition } ∨ l ≠ writer ∧ p.rows.leases.get l = some x := by
    intro l x hx
    rw [Table.get_set] at hx
    split at hx
    · rename_i heq
      cases hx
      exact .inl ⟨heq, rfl⟩
    · rename_i hne
      exact .inr ⟨hne, hx⟩
  refine h.commit ⟨?_, ?_, ?_, h.rows.ids, ?_, ?_, ?_⟩ ⟨?_, ?_⟩ ⟨?_, ?_⟩ (fun _ => id) ?_
  · intro k q l hq hl
    dsimp only
    rw [Table.get_set]
    split
    · exact ⟨_, rfl⟩
    · rename_i hne
      obtain ⟨-, rfl⟩ | ⟨-, hq⟩ := hrun hq
      · exact absurd (Option.some.inj hl).symm hne
      · exact h.rows.leased hq hl
  · intro i j q x l hq hx hql hxl
    obtain ⟨hi, rfl⟩ | ⟨-, hq⟩ := hrun hq <;> obtain ⟨hj, rfl⟩ | ⟨-, hx⟩ := hrun hx
    · rw [hi, hj]
    · cases hql
      exact absurd hxl (hunused hx)
    · cases hxl
      exact absurd hql (hunused hq)
    · exact h.rows.unique hq hx hql hxl
  · intro k q factId hq hid
    obtain ⟨-, rfl⟩ | ⟨-, hq⟩ := hrun hq
    · obtain ⟨f, -, -, hl⟩ := h.rows.requested hr hid
      rw [hfree] at hl
      cases hl
    · exact h.rows.requested hq hid
  · intro k q hq hs
    obtain ⟨-, rfl⟩ | ⟨-, hq⟩ := hrun hq
    · rfl
    · exact h.rows.owned hq hs
  · intro k q l x hq hl hs hx
    obtain ⟨-, rfl⟩ | ⟨hne, hx⟩ := hlease hx
    · rfl
    · obtain ⟨-, rfl⟩ | ⟨-, hq⟩ := hrun hq
      · exact absurd (Option.some.inj hl).symm hne
      · exact h.rows.unsealed hq hl hs hx
  · intro k q l hq hl hs
    obtain ⟨-, rfl⟩ | ⟨-, hq⟩ := hrun hq
    · rw [show r.outputSealedAt = true from hs] at hopen
      cases hopen
    · obtain ⟨y, hy, hle⟩ := h.rows.ordered hq hl hs
      refine ⟨y, hy, fun x d hx hd => ?_⟩
      obtain ⟨-, rfl⟩ | ⟨-, hx⟩ := hlease hx
      · cases hd
      · exact hle x d hx hd
  · intro l x hx
    refine ⟨x, ?_, rfl, fun _ => id⟩
    dsimp only
    rw [Table.get_set, if_neg, hx]
    rintro rfl
    rw [hfresh] at hx
    cases hx
  · intro k q hq
    dsimp only
    rw [Table.get_set]
    split
    · rename_i heq
      rw [heq, hr] at hq
      cases hq
      refine ⟨_, rfl, fun hs => ?_, fun l x hx hl => ?_⟩
      · rw [hopen] at hs
        cases hs
      · cases hl
        rw [hfresh] at hx
        cases hx
    · exact ⟨q, hq, fun hs => ⟨rfl, hs, rfl⟩, fun _ _ _ => id⟩
  · intro l x d hx hd
    obtain ⟨-, rfl⟩ | ⟨-, hx⟩ := hlease hx
    · cases hd
    · exact h.behind.writers hx hd
  · intro k q l x y hq hl hs hy hx
    obtain ⟨-, rfl⟩ | ⟨-, hq'⟩ := hrun hq
    · rw [show r.outputSealedAt = true from hs] at hopen
      cases hopen
    · obtain ⟨heq, -⟩ | ⟨-, hx⟩ := hlease hx
      · exact absurd (heq ▸ hl) (hunused hq')
      · exact h.behind.runs hq' hl hs hy hx
  · intro j k ho
    obtain ⟨q, hq, hl, hs⟩ := ho
    refine ⟨q, ?_, hl, hs⟩
    dsimp only
    rw [Table.get_set, if_neg, hq]
    rintro rfl
    rw [hr] at hq
    cases hq
    rw [hfree] at hl
    cases hl

theorem Sound.accept (h : p.Sound) {run : Nat} (hfresh : p.rows.runs.get run = none) :
    Sound { p with rows := p.rows.setRun run {} } := by
  have hrun : ∀ {k q}, (p.rows.runs.set run {}).get k = some q →
      q = {} ∨ p.rows.runs.get k = some q := by
    intro k q hq
    rw [Table.get_set] at hq
    split at hq
    · cases hq
      exact .inl rfl
    · exact .inr hq
  have hkept : ∀ {k q}, p.rows.runs.get k = some q → (p.rows.runs.set run {}).get k = some q := by
    intro k q hq
    rw [Table.get_set, if_neg, hq]
    rintro rfl
    rw [hfresh] at hq
    cases hq
  refine h.commit ⟨?_, ?_, ?_, h.rows.ids, ?_, ?_, ?_⟩ ⟨fun hw => ⟨_, hw, rfl, fun _ => id⟩, ?_⟩
    ⟨h.behind.writers, ?_⟩ (fun _ => id) ?_
  · intro k q l hq hl
    obtain rfl | hq := hrun hq
    · cases hl
    · exact h.rows.leased hq hl
  · intro i j q x l hq hx hql hxl
    obtain rfl | hq := hrun hq
    · cases hql
    · obtain rfl | hx := hrun hx
      · cases hxl
      · exact h.rows.unique hq hx hql hxl
  · intro k q factId hq hid
    obtain rfl | hq := hrun hq
    · cases hid
    · exact h.rows.requested hq hid
  · intro k q hq hs
    obtain rfl | hq := hrun hq
    · cases hs
    · exact h.rows.owned hq hs
  · intro k q l w hq hl hs hw
    obtain rfl | hq := hrun hq
    · cases hl
    · exact h.rows.unsealed hq hl hs hw
  · intro k q l hq hl hs
    obtain rfl | hq := hrun hq
    · cases hl
    · exact h.rows.ordered hq hl hs
  · intro k q hq
    exact ⟨q, hkept hq, fun hs => ⟨rfl, hs, rfl⟩, fun _ _ _ => id⟩
  · intro k q l w y hq hl hs hy hw
    obtain rfl | hq := hrun hq
    · cases hl
    · exact h.behind.runs hq hl hs hy hw
  · rintro j k ⟨q, hq, hl, hs⟩
    exact ⟨q, hkept hq, hl, hs⟩

theorem Sound.request (h : p.Sound) {run factId : Nat} {recover : Bool} {p' : Projector}
    (hp : p.request run factId recover = some p') : p'.Sound := by
  unfold Projector.request at hp
  obtain ⟨r, hr, hp⟩ := bind_some hp
  obtain ⟨writer, hlease, hp⟩ := bind_some hp
  obtain ⟨hg, hp⟩ := guard_some hp
  obtain ⟨w, hw⟩ := h.rows.leased hr hlease
  rw [Bool.and_eq_true, List.all_eq_true] at hg
  have hopened : ∀ {rows' r' w'}, OwnerChange p.rows rows' run writer r r' w w' →
      r'.leaseId = r.leaseId → r'.outputSealedAt = r.outputSealedAt →
      ∀ {j k}, Opened p.rows j k → Opened rows' j k := by
    intro rows' r' w' hchange hl hs j k ho
    by_cases hk : (j, k) = (writer, run)
    · obtain ⟨q, hq, -, hopen⟩ := id ho
      cases hk
      rw [hr] at hq
      cases hq
      exact hchange.opened ho (.inr ⟨hl.trans hlease, hs.trans hopen⟩)
    · exact hchange.opened ho (.inl hk)
  split at hp
  · rename_i id' hid
    cases hp
    have hchange : OwnerChange p.rows (p.rows.setRun run { r with terminal := !recover }) run writer r
        { r with terminal := !recover } w w :=
      ⟨hr, hlease, hw, fun j => Table.get_set .., Rows.unchanged hw, rfl, fun _ => id, .inl hlease,
        fun hs => ⟨rfl, hs, rfl⟩⟩
    refine h.commit ?_ hchange.later ?_ (fun _ => id) (hopened hchange rfl rfl)
    · have hrequested : ∀ factId, r.outputSealId = some factId →
          ∃ f ∈ p.outbox, f.factId = factId ∧ r.leaseId = some f.writer := fun _ => h.rows.requested hr
      exact hchange.sound h.rows (fun _ => id) h.rows.ids hrequested (fun _ => hlease)
        (fun _ hs => h.rows.unsealed hr hlease hs hw) fun hs => by
          obtain ⟨y, hy, hle⟩ := h.rows.ordered hr hlease hs
          exact ⟨y, hy, fun d hd => hle w d hw hd⟩
    · exact hchange.behind h.behind (fun d hd => h.behind.writers hw hd)
        fun y hs hy => h.behind.runs hr hlease hs hy hw
  · rename_i hnone
    cases hp
    have hchange : OwnerChange p.rows ((p.rows.failWriter writer).setRun run
        { r with terminal := !recover, outputSealId := some factId }) run writer r
        { r with terminal := !recover, outputSealId := some factId } w { w with writerFailedAt := true } :=
      ⟨hr, hlease, hw, fun j => Table.get_set .., Table.get_modify_of_get hw _, rfl, fun _ => id,
        .inl hlease, fun hs => ⟨rfl, hs, rfl⟩⟩
    refine h.commit ?_ hchange.later ?_ (fun f hf => List.mem_append_left _ hf)
      (hopened hchange rfl rfl)
    · have hopen : r.outputSealedAt = false → w.writerSealOffset = none :=
        fun hs => h.rows.unsealed hr hlease hs hw
      refine hchange.sound h.rows (fun f hf => List.mem_append_left _ hf) ?_ ?_ (fun _ => hlease)
        (fun _ hs => hopen hs) fun hs => ?_
      · exact unique_snoc h.rows.ids fun f hf => of_decide_eq_true (hg.2 f hf)
      · intro id' hid
        cases hid
        exact ⟨_, List.mem_append_right _ (List.mem_singleton_self _), rfl, hlease⟩
      · obtain ⟨y, hy, hle⟩ := h.rows.ordered hr hlease hs
        exact ⟨y, hy, fun d hd => hle w d hw hd⟩
    · exact hchange.behind h.behind (fun d hd => h.behind.writers hw hd)
        fun y hs hy => h.behind.runs hr hlease hs hy hw

theorem Sound.publish (h : p.Sound) {fact : Fact} {p' : Projector}
    (hp : p.publish fact = some p') : p'.Sound := by
  unfold Projector.publish at hp
  obtain ⟨⟨r, w⟩, howner, hp⟩ := bind_some hp
  obtain ⟨hreq, hp⟩ := guard_some hp
  cases hp
  refine ⟨h.rows, h.boundary, h.behind, ?_, ?_, h.read, ?_⟩
  · intro j x hx
    dsimp only at hx
    rw [Function.update_apply] at hx
    split at hx
    · rename_i hj
      obtain hx | rfl := mem_snoc.mp hx
      · exact h.published j x (hj ▸ hx)
      · exact ⟨hreq, r, w, howner, hj.symm⟩
    · exact h.published j x hx
  · intro j i f hi hf
    dsimp only at hf
    rw [Function.update_apply] at hf
    split at hf
    · rename_i hj
      subst hj
      have hlt : i < (p.log w.partition).length := Nat.lt_of_lt_of_le hi (h.logged w.partition)
      rw [List.getElem?_append_left hlt] at hf
      exact h.replayed _ i f hi hf
    · exact h.replayed j i f hi hf
  · intro j
    dsimp only
    rw [Function.update_apply]
    have := h.logged j
    split
    · rename_i hj
      subst hj
      rw [List.length_append]
      omega
    · exact this

theorem Sound.step (h : p.Sound) {op : Op} {p' : Projector} (hp : p.step op = some p') : p'.Sound := by
  cases op with
  | accept run =>
    obtain ⟨hg, hp⟩ := guard_some hp
    cases hp
    exact h.accept (Option.isNone_iff_eq_none.mp hg)
  | startAdmittedRun run writer partition => exact h.startAdmittedRun hp
  | request run factId recover => exact h.request hp
  | publish fact => exact h.publish hp
  | isOpen record canonical =>
    obtain ⟨howner, hp⟩ := guard_some hp
    cases hp
    exact ⟨h.rows, h.boundary.isOpen record canonical howner, h.behind, h.published, h.replayed, h.read,
      h.logged⟩
  | project partition => exact h.project hp
  | reset floor =>
    cases hp
    exact ⟨h.rows, Boundary.sound_empty, h.behind, h.published, h.replayed,
      fun partition => Nat.min_le_right .., h.logged⟩

theorem sound_start : Sound {} where
  rows := by
    refine ⟨?_, ?_, ?_, ?_, ?_, ?_, ?_⟩
    · intro k r l hr
      cases hr
    · intro k j r q l hr
      cases hr
    · intro k r f hr
      cases hr
    · intro f hf
      cases hf
    · intro k r hr
      cases hr
    · intro k r l w hr
      cases hr
    · intro k r l hr
      cases hr
  boundary := Boundary.sound_empty
  behind := by
    refine ⟨?_, ?_⟩
    · intro l w d hw
      cases hw
    · intro k r l w y hr
      cases hr
  published := by
    intro partition fact hf
    cases hf
  replayed := by
    intro partition i f hi
    cases hi
  read _ := Nat.le_refl _
  logged _ := Nat.le_refl _

theorem Sound.run (h : p.Sound) (ops : List Op) : (p.run ops).Sound := by
  unfold Projector.run
  induction ops generalizing p with
  | nil => exact h
  | cons op ops ih =>
    rw [List.foldl_cons]
    cases hstep : p.step op with
    | none => exact ih h
    | some p' => exact ih (h.step hstep)

theorem observes_sealed (ops : List Op) {partition i run : Nat} {fact : SealFact}
    (hread : i < (Projector.run {} ops).projected partition)
    (hfact : ((Projector.run {} ops).log partition)[i]? = some (.sealing fact)) :
    (Projector.run {} ops).boundary.observes run fact.writer = false := by
  have h : (Projector.run {} ops).Sound := sound_start.run ops
  obtain ⟨w, d, hw, hd, -⟩ := h.replayed partition i fact hread hfact
  refine eq_false_of_ne_true fun hobserves => ?_
  unfold Boundary.observes at hobserves
  rw [Bool.and_eq_true, Bool.and_eq_true] at hobserves
  obtain ⟨r, hr, hlease, hunsealed⟩ := h.boundary.opened (of_decide_eq_true hobserves.1.1)
  rw [h.rows.unsealed hr hlease hunsealed hw] at hd
  cases hd

theorem observes_sealed_recovered :
    (run {} [.accept 1, .startAdmittedRun 1 5 0, .publish (.output 1 5), .project 0,
      .request 1 9 true, .publish (.sealing ⟨9, 1, 5, true⟩), .project 0]).boundary.observes 1 5 =
        false :=
  @observes_sealed _ 0 1 1 ⟨9, 1, 5, true⟩ (by decide) (by decide)

end Projector

/-- After every run, for every record: the boundary answers what an empty cache answers. But the
first record of an execution is checked once, so that a canonical record of an open execution is not
checked again; and a record that the reader is past may find a tombstone that is later than the
closure of the rows. -/
theorem boundary_agrees (ops : List Op) (record : Record) (canonical : Bool) :
    let p := Projector.run {} ops
    let cached := (p.boundary.isOpen p.rows record canonical).1
    let fresh := (({} : Boundary).isOpen p.rows record canonical).1
    cached = fresh ∨
      (canonical = true ∧ cached = .ok true ∧ fresh = .error .prefixMissing) ∨
      (canonical = false ∧ cached = .ok true ∧ fresh = .ok false ∧
        Passed p.rows p.position record) := by
  intro p cached fresh
  have h : p.Sound := Projector.sound_start.run ops
  exact agrees h.rows h.boundary

/-- The caches and the rows disagree on a canonical record: the second one of an execution is open in
the cache, where the rows have the first one recorded as the floor and throw. They disagree on the
others too: after the recovery of the Run, its first record lies before the tombstone. -/
theorem cache_disagrees :
    (¬ ∀ (ops : List Op) (record : Record), let p := Projector.run {} ops
      (p.boundary.isOpen p.rows record true).1 = (({} : Boundary).isOpen p.rows record true).1) ∧
    ¬ ∀ (ops : List Op) (record : Record), let p := Projector.run {} ops
      (p.boundary.isOpen p.rows record false).1 = (({} : Boundary).isOpen p.rows record false).1 := by
  constructor
  · intro h
    have heq := h [.accept 1, .startAdmittedRun 1 5 0, .publish (.output 1 5), .publish (.output 1 5),
      .project 0] { run := 1, writer := 5, partition := 0, offset := 1 }
    revert heq
    decide
  · intro h
    have heq := h [.accept 1, .startAdmittedRun 1 5 0, .publish (.output 1 5), .project 0,
      .request 1 9 true, .publish (.sealing ⟨9, 1, 5, true⟩), .project 0]
      { run := 1, writer := 5, partition := 0, offset := 0 }
    revert heq
    decide

end ExecutionStream
end Runtime
end PiCloud
