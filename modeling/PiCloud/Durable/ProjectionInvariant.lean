import PiCloud.Durable.LiveProjection

/-!
# Durable.ProjectionInvariant

The tables and the memory of the native projection against the rows that its commits leave.

* `Chain`: the rows after each commit, and what a commit does to each of them.
* `Inv`: a table row is the row after the last commit, or it is pinned before a pending suffix.
* `LiveAt`: the memory of a projector that has seen the commits up to some sequence.
* `projectIn_keeps`: a new commit keeps them.
-/

namespace PiCloud
namespace Durable

open Lib ProjectionTables

/-! ## The rows that the commits leave -/

section Chain

variable {Op D : Type}
  (applyImmutableBatches : Members → List (List Op) → Except String Members)

/-- What a commit makes of the row of `id`. -/
def Moves (fact : DeliveredCommit Op) (id : Nat) (found after : Option CurrentStateRow) : Prop :=
  ∃ known changed, (found.isSome → known = true) ∧
    rowRun applyImmutableBatches fact.batch.seq fact.origins known id fact.batch.writes.zipIdx
      (found, false) = .ok (after, changed) ∧
    ∀ q r, found = some q → after = some r → r.kind = q.kind

/-- `V k` are the rows after `k` commits. -/
structure Chain (commits : List (CommitRow Op D)) (V : Nat → Nat → Option CurrentStateRow) :
    Prop where
  start : ∀ id, V 0 id = none
  step : ∀ k c, commits[k]? = some c →
    c.fact.batch.seq = k + 1 ∧ ∀ id, Moves applyImmutableBatches c.fact id (V k id) (V (k + 1) id)

variable {applyImmutableBatches} {commits : List (CommitRow Op D)}
  {V : Nat → Nat → Option CurrentStateRow}

theorem Chain.row (h : Chain applyImmutableBatches commits V) {k : Nat} (hk : k ≤ commits.length)
    (id : Nat) (r : CurrentStateRow) (hr : V k id = some r) : RowOf id r ∧ r.seq ≤ k := by
  induction k generalizing r with
  | zero =>
    rw [h.start] at hr
    cases hr
  | succ k ih =>
    obtain ⟨hseq, hmoves⟩ := h.step k _ (List.getElem?_eq_getElem (by omega))
    obtain ⟨known, changed, _, hrun, _⟩ := hmoves id
    have hfrom := (RowFrom.start fun q hq => (ih (by omega) q hq).1).run hrun
    refine ⟨hfrom.rowOf r hr, ?_⟩
    cases changed with
    | false =>
      have hq := hfrom.untouched rfl
      have := (ih (by omega) r (hq.symm.trans hr)).2
      omega
    | true =>
      obtain ⟨q, hq, hqs⟩ := hfrom.written rfl
      rw [hr] at hq
      cases hq
      omega

theorem Chain.mono (h : Chain applyImmutableBatches commits V) {i j : Nat} (hij : i ≤ j)
    (hj : j ≤ commits.length) {id : Nat} {q : CurrentStateRow} (hq : V i id = some q) :
    ∃ r, V j id = some r ∧ q.seq ≤ r.seq := by
  induction hij with
  | refl => exact ⟨q, hq, Nat.le_refl _⟩
  | step hij ih =>
    rename_i j
    obtain ⟨p, hp, hle⟩ := ih (by omega)
    obtain ⟨hseq, hmoves⟩ := h.step j _ (List.getElem?_eq_getElem (by omega))
    obtain ⟨known, changed, _, hrun, _⟩ := hmoves id
    have hfrom := (RowFrom.start fun q hq => (h.row (by omega) id q hq).1).run hrun
    cases changed with
    | false =>
      have : V (j + 1) id = V j id := hfrom.untouched rfl
      exact ⟨p, this.trans hp, hle⟩
    | true =>
      obtain ⟨r, hr, hrs⟩ := hfrom.written rfl
      have := (h.row (by omega) id p hp).2
      exact ⟨r, hr, by omega⟩

theorem Chain.keeps (h : Chain applyImmutableBatches commits V) {i j : Nat} (hij : i ≤ j)
    (hj : j ≤ commits.length) {id : Nat} {p q : CurrentStateRow} (hp : V i id = some p)
    (hq : V j id = some q) :
    p.kind = q.kind ∧ p.createdSeq = q.createdSeq ∧ p.body.record = q.body.record := by
  induction hij generalizing q with
  | refl =>
    rw [hp] at hq
    cases hq
    exact ⟨rfl, rfl, rfl⟩
  | step hij ih =>
    rename_i j
    obtain ⟨m, hm, _⟩ := h.mono hij (by omega) hp
    obtain ⟨hk, hcreated, hrec⟩ := ih (by omega) hm
    obtain ⟨hseq, hmoves⟩ := h.step j _ (List.getElem?_eq_getElem (by omega))
    obtain ⟨known, changed, hknown, hrun, hkind⟩ := hmoves id
    have hqk : q.kind = m.kind := hkind m q hm hq
    rw [hm] at hrun hknown
    have hqrow : V (j + 1) id = some q := hq
    rw [hqrow, hknown rfl] at hrun
    cases hb : q.body with
    | document =>
      obtain ⟨_, hqrec, hqcreated⟩ :=
        rowRun_keeps (by simp [CurrentStateRow.kind, hb, CurrentBody.kind]) hrun
      exact ⟨hk.trans hqk.symm, hcreated.trans hqcreated.symm, hb ▸ hrec.trans hqrec.symm⟩
    | submission =>
      have hqs : q.kind = .value .submission := by
        simp [CurrentStateRow.kind, hb, CurrentBody.kind]
      have hms : m.kind = .value .submission := hqk.symm.trans hqs
      have hmc := (h.row (by omega) id m hm).1.created hms
      have hqc := (h.row hj id q hq).1.created hqs
      refine ⟨hk.trans hqk.symm, hcreated.trans (hmc.trans hqc.symm), hrec.trans ?_⟩
      unfold CurrentStateRow.kind at hms
      cases hmb : m.body with
      | submission => rfl
      | document =>
        rw [hmb] at hms
        cases hms

theorem Moves.isSome {fact : DeliveredCommit Op} {id : Nat} {found after : Option CurrentStateRow}
    (h : Moves applyImmutableBatches fact id found after) (hrow : ∀ r, found = some r → RowOf id r)
    (hfound : found.isSome) : after.isSome := by
  obtain ⟨known, changed, _, hrun, _⟩ := h
  have hfrom := (RowFrom.start hrow).run hrun
  cases changed with
  | false =>
    have : after = found := hfrom.untouched rfl
    rw [this]
    exact hfound
  | true =>
    obtain ⟨q, hq, _⟩ := hfrom.written rfl
    have : after = some q := hq
    rw [this]
    rfl

theorem Moves.claimed {fact : DeliveredCommit Op} {id : Nat}
    {found after : Option CurrentStateRow} (h : Moves applyImmutableBatches fact id found after)
    (hrow : ∀ r, found = some r → RowOf id r) : Claimed id fact.batch.writes.zipIdx found := by
  constructor
  · rintro ⟨q, rfl, hqk⟩ w hw hid
    have hsome := h.isSome hrow rfl
    obtain ⟨known, changed, hknown, hrun, hkind⟩ := h
    rw [hknown rfl] at hrun
    cases hsub : w.1.isSubmission with
    | false => rfl
    | true =>
      obtain ⟨r, hr, hrk⟩ := rowRun_submits rfl ⟨w, hw, hid, hsub⟩ hrun
      rw [hkind q r rfl hr, hqk] at hrk
      cases hrk
  · rintro ⟨c, hc, hcid⟩ w hw hid
    have hmem : ∀ {v : StorageWrite Op × Nat}, v ∈ fact.batch.writes.zipIdx →
        v.1 ∈ fact.batch.writes := fun hv => by
      have := List.mem_zipIdx' hv
      rw [this.2]
      exact List.getElem_mem _
    have hno := fact.batch.claimed id (List.mem_filterMap.mpr ⟨c.1, hmem hc, hcid⟩)
    cases hsub : w.1.isSubmission with
    | false => rfl
    | true =>
      refine absurd (List.mem_filterMap.mpr ⟨w.1, hmem hw, ?_⟩) hno
      obtain ⟨write, ordinal⟩ := w
      cases write with
      | value => exact congrArg some hid
      | documentCreate => cases hsub
      | documentChange => cases hsub
      | documentRetire => cases hsub
      | documentCopy => cases hsub

theorem Chain.agrees (h : Chain applyImmutableBatches commits V)
    (hc : Composes applyImmutableBatches) (retention : Retention) {k : Nat}
    (hk : k ≤ commits.length) (id : Nat) :
    ∃ stored, storedRevisions applyImmutableBatches retention id
        ((commits.take k).map fun c => c.fact.batch) = .ok stored ∧
      Agrees applyImmutableBatches (V k id) stored := by
  induction k with
  | zero =>
    rw [h.start]
    exact ⟨none, rfl, .absent⟩
  | succ k ih =>
    obtain ⟨stored, hstored, hagrees⟩ := ih (by omega)
    have hget : commits[k]? = some commits[k] := List.getElem?_eq_getElem (by omega)
    obtain ⟨_, hmoves⟩ := h.step k _ hget
    have hrow := fun r hr => (h.row (by omega : k ≤ commits.length) id r hr).1
    have hclaimed := (hmoves id).claimed hrow
    obtain ⟨known, changed, hknown, hrun, _⟩ := hmoves id
    have hstep : ∃ stored', commits[k].fact.batch.writes.zipIdx.foldlM
        (storeStep applyImmutableBatches retention commits[k].fact.batch.seq id) stored
        = .ok stored' ∧ Agrees applyImmutableBatches (V (k + 1) id) stored' :=
      hagrees.run hc (fun hs => by rw [hknown hs]; rfl) hclaimed hrun
    obtain ⟨stored', hst, hagrees'⟩ := hstep
    refine ⟨stored', ?_, hagrees'⟩
    unfold storedRevisions at hstored ⊢
    rw [List.take_add_one, hget, List.map_append, List.foldlM_append, hstored, ok_bind]
    show List.foldlM _ stored [commits[k].fact.batch] = _
    rw [List.foldlM_cons]
    unfold storeBatch
    rw [hst]
    rfl

theorem Agrees.read {row : Option CurrentStateRow} {stored : Option (StoredRevisions Op)}
    (h : Agrees applyImmutableBatches row stored) (retention : Retention) {id : Nat}
    {batches : List (DurableBatch Op)}
    (hstored : storedRevisions applyImmutableBatches retention id batches = .ok stored) :
    readDocument applyImmutableBatches retention id batches = .ok (currentDocument row) := by
  unfold readDocument
  rw [hstored, ok_bind]
  cases h with
  | absent => rfl
  | submission hk =>
    rename_i row
    obtain ⟨seq, ordinal, body, deltaCount, createdSeq, retiredSeq, cloudOrigin⟩ := row
    cases body with
    | submission => rfl
    | document => cases hk
  | current hk hrow hret hrec hmat =>
    dsimp only
    rw [hret, hmat, hrow]
    rfl
  | retired hk hrow hret =>
    rename_i row stored
    obtain ⟨seq, ordinal, body, deltaCount, createdSeq, retiredSeq, cloudOrigin⟩ := row
    obtain ⟨t, rfl⟩ := Option.isSome_iff_exists.mp hrow
    dsimp only
    rw [hret]
    cases body <;> rfl

end Chain

/-! ## The tables and the memory -/

section Inv

variable {Op D : Type}
  (applyImmutableBatches : Members → List (List Op) → Except String Members)
  (digests : Digests Op D)

/-- The document of a pin is pending from the pinned commit on, and each of those commits that
wrote it was delivered from the pinned stream. -/
structure Pinned (commits : List (CommitRow Op D)) (V : Nat → Nat → Option CurrentStateRow) (id : Nat)
    (row : CurrentStateRow) (reference : ReplayReference) : Prop where
  pos : 1 ≤ reference.seq
  bound : reference.seq ≤ commits.length
  before : V (reference.seq - 1) id = some row
  live : isLiveRow row = true
  pending : ∀ k c, commits[k]? = some c → reference.seq ≤ k + 1 →
    ∃ r, V (k + 1) id = some r ∧ isPendingLiveRow r = true ∧
      (r.seq = k + 1 → reference.topic = c.fact.position.topic ∧
        reference.partition = c.fact.position.partition ∧
        reference.offset ≤ c.fact.position.offset)

/-- The table row of `id` against the row that the commits leave. -/
def TableAt (commits : List (CommitRow Op D)) (V : Nat → Nat → Option CurrentStateRow) (id : Nat) :
    Option CurrentEntry → Prop
  | none => V commits.length id = none
  | some ⟨row, none⟩ => V commits.length id = some row
  | some ⟨row, some reference⟩ => Pinned commits V id row reference

/-- The tables hold what the commits leave, except for the rows that a pin can make again. -/
structure Inv (db : ProjectionTables Op D) (V : Nat → Nat → Option CurrentStateRow) : Prop where
  chain : Chain applyImmutableBatches db.commits V
  commit : ∀ k c, db.commits[k]? = some c →
    c.fingerprint = digests.commit c.fact.batch c.fact.origins ∧
    ∀ id r, V (k + 1) id = some r → r.seq = k + 1 →
      c.currentHashes.lookup id = some (digests.row r)
  table : ∀ id, TableAt db.commits V id (db.current.get id)
  index : ∀ id, (db.current.get id).isSome → (db.index id).isSome
  created : ∀ k c, db.commits[k]? = some c → ∀ id, (V k id).isSome → ∀ record content,
    .documentCreate record content ∈ c.fact.batch.writes → record.id ≠ id

/-- The memory of a projector that has seen the commits up to `t`. -/
def memoryRow (V : Nat → Nat → Option CurrentStateRow) (t id : Nat) :
    Option CurrentEntry → Option CurrentStateRow
  | some ⟨row, some reference⟩ => if reference.seq ≤ t then V t id else some row
  | _ => none

structure LiveAt (db : ProjectionTables Op D) (V : Nat → Nat → Option CurrentStateRow) (t : Nat)
    (live : NativeLiveState) : Prop where
  through : live.through = some t
  bound : t ≤ db.head
  rows : ∀ id, live.rows id = memoryRow V t id (db.current.get id)

variable {applyImmutableBatches} {digests} {db : ProjectionTables Op D}
  {V : Nat → Nat → Option CurrentStateRow}

theorem Inv.row (h : Inv applyImmutableBatches digests db V) {k : Nat} (hk : k ≤ db.head) (id : Nat)
    (r : CurrentStateRow) (hr : V k id = some r) : RowOf id r ∧ r.seq ≤ k :=
  h.chain.row hk id r hr

theorem Pinned.latest {commits : List (CommitRow Op D)} {id : Nat} {row : CurrentStateRow}
    {reference : ReplayReference} (hp : Pinned commits V id row reference) {k : Nat}
    (hle : reference.seq ≤ k) (hk : k ≤ commits.length) :
    ∃ r, V k id = some r ∧ isPendingLiveRow r = true := by
  have hpos := hp.pos
  obtain ⟨r, hr, hpend, _⟩ :=
    hp.pending (k - 1) _ (List.getElem?_eq_getElem (by omega)) (by omega)
  rw [show k - 1 + 1 = k by omega] at hr
  exact ⟨r, hr, hpend⟩

theorem Inv.isSome (h : Inv applyImmutableBatches digests db V) (id : Nat) :
    (db.current.get id).isSome = (V db.head id).isSome := by
  have ht := h.table id
  cases hget : db.current.get id with
  | none =>
    rw [hget] at ht
    exact congrArg Option.isSome (Eq.symm ht)
  | some e =>
    rw [hget] at ht
    obtain ⟨row, replay⟩ := e
    cases replay with
    | none => exact congrArg Option.isSome (Eq.symm ht)
    | some reference =>
      have hp : Pinned db.commits V id row reference := ht
      obtain ⟨r, hr, _⟩ := hp.latest hp.bound (Nat.le_refl _)
      exact congrArg Option.isSome hr.symm

theorem LiveAt.pinned {t : Nat} {live : NativeLiveState} (hl : LiveAt db V t live)
    (h : Inv applyImmutableBatches digests db V) {id : Nat} {row : CurrentStateRow}
    {reference : ReplayReference} (hget : db.current.get id = some ⟨row, some reference⟩)
    (hs : reference.seq ≤ t + 1) :
    ∃ r, V t id = some r ∧ live.rows id = some r ∧ liveRow live id row = r := by
  have hp : Pinned db.commits V id row reference := by
    have := h.table id
    rwa [hget] at this
  have hpos := hp.pos
  obtain ⟨r, hr, hle⟩ := h.chain.mono (show reference.seq - 1 ≤ t by omega) hl.bound hp.before
  have hrows : live.rows id = some r := by
    rw [hl.rows, hget]
    unfold memoryRow
    dsimp only
    split
    · exact hr
    · have : t = reference.seq - 1 := by omega
      rw [← hr, this, hp.before]
  refine ⟨r, hr, hrows, ?_⟩
  unfold liveRow
  rw [hrows]
  dsimp only
  rw [if_neg (by omega)]

theorem LiveAt.found {live : NativeLiveState} (hl : LiveAt db V db.head live)
    (h : Inv applyImmutableBatches digests db V) (id : Nat) :
    (db.current.get id).map (fun e => liveRow live id e.row) = V db.head id := by
  have ht := h.table id
  cases hget : db.current.get id with
  | none =>
    rw [hget] at ht
    exact Eq.symm ht
  | some e =>
    obtain ⟨row, replay⟩ := e
    cases replay with
    | none =>
      rw [hget] at ht
      have hv : V db.head id = some row := ht
      have hm := hl.rows id
      rw [hget] at hm
      rw [hv, Option.map_some]
      unfold liveRow
      rw [hm]
      rfl
    | some reference =>
      have hp : Pinned db.commits V id row reference := by rwa [hget] at ht
      obtain ⟨r, hr, _, hrow⟩ := hl.pinned h hget (Nat.le_succ_of_le hp.bound)
      rw [hr, Option.map_some, hrow]

def protectedThrough (db : ProjectionTables Op D) : Nat :=
  ((db.current.scan.filter (·.replay.isSome)).filterMap (·.replay)).foldl
    (fun t reference => min t (reference.seq - 1)) db.head

theorem addCheckpoint_through (es : List CurrentEntry) (live : NativeLiveState) :
    (es.foldl NativeLiveState.addCheckpoint live).through
      = live.through.map fun t => (es.filterMap (·.replay)).foldl
          (fun t reference => min t (reference.seq - 1)) t := by
  induction es generalizing live with
  | nil => simp
  | cons e es ih =>
    rw [List.foldl_cons, ih]
    obtain ⟨row, replay⟩ := e
    cases replay with
    | none => rfl
    | some reference =>
      obtain ⟨through, rows⟩ := live
      cases through <;> rfl

theorem addCheckpoint_rows {es : List CurrentEntry}
    (hes : ∀ e ∈ es, e.replay.isSome ∧ db.current.get e.row.id = some e) (live : NativeLiveState)
    (id : Nat) :
    (es.foldl NativeLiveState.addCheckpoint live).rows id
      = if id ∈ es.map (·.row.id) then (db.current.get id).map (·.row) else live.rows id := by
  induction es generalizing live with
  | nil => simp
  | cons e es ih =>
    rw [List.foldl_cons, ih fun q hq => hes q (List.mem_cons_of_mem _ hq)]
    obtain ⟨hreplay, hget⟩ := hes e List.mem_cons_self
    obtain ⟨reference, href⟩ := Option.isSome_iff_exists.mp hreplay
    by_cases hmem : id ∈ es.map (·.row.id)
    · rw [if_pos hmem, List.map_cons, if_pos (List.mem_cons_of_mem _ hmem)]
    · rw [if_neg hmem]
      unfold NativeLiveState.addCheckpoint
      rw [href]
      dsimp only
      by_cases hid : id = e.row.id
      · subst hid
        rw [Function.update_self, if_pos (by simp), hget, Option.map_some]
      · rw [Function.update_of_ne hid, if_neg]
        rw [List.map_cons, List.mem_cons, not_or]
        exact ⟨hid, hmem⟩

theorem foldl_min_le (references : List ReplayReference) (t : Nat) :
    references.foldl (fun t reference => min t (reference.seq - 1)) t ≤ t ∧
      ∀ reference ∈ references,
        references.foldl (fun t reference => min t (reference.seq - 1)) t ≤ reference.seq - 1 := by
  induction references generalizing t with
  | nil => simp
  | cons reference references ih =>
    rw [List.foldl_cons]
    obtain ⟨hle, hall⟩ := ih (min t (reference.seq - 1))
    refine ⟨by omega, fun r hr => ?_⟩
    obtain rfl | hr := List.mem_cons.mp hr
    · omega
    · exact hall r hr

theorem Inv.entryAt (h : Inv applyImmutableBatches digests db V) {id : Nat} {e : CurrentEntry}
    (hget : db.current.get id = some e) : ∃ i, i ≤ db.head ∧ V i id = some e.row := by
  have ht := h.table id
  rw [hget] at ht
  obtain ⟨row, replay⟩ := e
  cases replay with
  | none => exact ⟨_, Nat.le_refl _, ht⟩
  | some reference =>
    have hp : Pinned db.commits V id row reference := ht
    have hb := hp.bound
    exact ⟨reference.seq - 1, by unfold ProjectionTables.head; omega, hp.before⟩

theorem Inv.entry (h : Inv applyImmutableBatches digests db V) {id : Nat} {e : CurrentEntry}
    (hget : db.current.get id = some e) : e.row.id = id := by
  obtain ⟨i, hi, hrow⟩ := h.entryAt hget
  exact (h.row hi id e.row hrow).1.id

theorem Inv.pinnedEntries (h : Inv applyImmutableBatches digests db V) {e : CurrentEntry} :
    e ∈ db.current.scan.filter (·.replay.isSome) ↔
      e.replay.isSome ∧ db.current.get e.row.id = some e := by
  rw [List.mem_filter, Table.mem_scan]
  constructor
  · rintro ⟨⟨id, hid⟩, hreplay⟩
    rw [h.entry hid]
    exact ⟨hreplay, hid⟩
  · rintro ⟨hreplay, hget⟩
    exact ⟨⟨_, hget⟩, hreplay⟩

theorem Inv.liveCheckpoints (h : Inv applyImmutableBatches digests db V) :
    db.liveCheckpoints = .ok (db.current.scan.filter (·.replay.isSome)) := by
  unfold ProjectionTables.liveCheckpoints
  have hlive : (db.current.scan.filter (·.replay.isSome)).all (isLiveRow ·.row) = true := by
    rw [List.all_eq_true]
    intro e he
    obtain ⟨hreplay, hget⟩ := h.pinnedEntries.mp he
    obtain ⟨row, replay⟩ := e
    obtain ⟨reference, rfl⟩ := Option.isSome_iff_exists.mp hreplay
    have ht := h.table row.id
    rw [hget] at ht
    exact (show Pinned db.commits V row.id row reference from ht).live
  have hindex : (db.current.scan.filter (·.replay.isSome)).all
      (fun e => (db.index e.row.id).isSome) = true := by
    rw [List.all_eq_true]
    intro e he
    obtain ⟨_, hget⟩ := h.pinnedEntries.mp he
    exact h.index _ (by rw [hget]; rfl)
  dsimp only
  rw [if_neg (by rw [hlive]; decide), if_neg (by rw [hindex]; decide)]

theorem Inv.initialize (h : Inv applyImmutableBatches digests db V) :
    ∃ live, initializeLive db {} = .ok live ∧ LiveAt db V (protectedThrough db) live := by
  refine ⟨_, by unfold initializeLive; rw [h.liveCheckpoints]; rfl, ?_⟩
  unfold NativeLiveState.initialize
  dsimp only
  have hbound := foldl_min_le ((db.current.scan.filter (·.replay.isSome)).filterMap (·.replay))
    db.head
  refine ⟨addCheckpoint_through _ _, hbound.1, fun id => ?_⟩
  rw [addCheckpoint_rows fun e he => h.pinnedEntries.mp he]
  cases hget : db.current.get id with
  | none =>
    rw [Option.map_none, ite_self]
    rfl
  | some e =>
    have hid := h.entry hget
    obtain ⟨row, replay⟩ := e
    cases replay with
    | none =>
      rw [if_neg]
      · rfl
      · intro hmem
        obtain ⟨e, he, rfl⟩ := List.mem_map.mp hmem
        obtain ⟨hreplay, hget'⟩ := h.pinnedEntries.mp he
        rw [hget] at hget'
        cases hget'
        cases hreplay
    | some reference =>
      have hmem : (⟨row, some reference⟩ : CurrentEntry)
          ∈ db.current.scan.filter (·.replay.isSome) :=
        h.pinnedEntries.mpr ⟨rfl, by rw [hid]; exact hget⟩
      rw [if_pos (List.mem_map.mpr ⟨_, hmem, hid⟩), Option.map_some]
      unfold memoryRow
      dsimp only
      rw [if_neg]
      have hle := hbound.2 reference (List.mem_filterMap.mpr ⟨_, hmem, rfl⟩)
      have hpos : 1 ≤ reference.seq := by
        have ht := h.table id
        rw [hget] at ht
        exact (show Pinned db.commits V id row reference from ht).pos
      unfold protectedThrough
      omega

/-! ## One commit -/

theorem mem_currentStateIds {batch : DurableBatch Op} {id : Nat} :
    id ∈ currentStateIds batch ↔ ∃ w ∈ batch.writes, currentStateId w = some id := by
  unfold currentStateIds
  rw [List.mem_eraseDups, List.mem_filterMap]

theorem currentStateId_eq {w : StorageWrite Op} {id : Nat} (h : currentStateId w = some id) :
    w.id = id := by
  cases w with
  | value kind => cases kind <;> cases h; rfl
  | documentCreate => cases h; rfl
  | documentChange => cases h; rfl
  | documentRetire => cases h; rfl
  | documentCopy => cases h

theorem mem_of_zipIdx {writes : List (StorageWrite Op)} {w : StorageWrite Op × Nat}
    (h : w ∈ writes.zipIdx) : w.1 ∈ writes := by
  rw [(List.mem_zipIdx' h).2]
  exact List.getElem_mem _

theorem exists_zipIdx {writes : List (StorageWrite Op)} {w : StorageWrite Op} (h : w ∈ writes) :
    ∃ ordinal, (w, ordinal) ∈ writes.zipIdx := by
  obtain ⟨ordinal, hlt, hget⟩ := List.getElem_of_mem h
  refine ⟨ordinal, ?_⟩
  rw [List.mem_zipIdx_iff_getElem?]
  exact List.getElem?_eq_some_iff.mpr ⟨hlt, hget⟩

theorem unlisted_writes {batch : DurableBatch Op} {id : Nat} (hid : id ∉ currentStateIds batch)
    (w : StorageWrite Op × Nat) (hw : w ∈ batch.writes.zipIdx) (hwid : w.1.id = id) :
    currentStateId w.1 = none := by
  by_contra hne
  obtain ⟨j, hj⟩ := Option.ne_none_iff_exists'.mp hne
  have hji : j = id := (currentStateId_eq hj).symm.trans hwid
  exact hid (mem_currentStateIds.mpr ⟨w.1, mem_of_zipIdx hw, hji ▸ hj⟩)

theorem foundRow_run {batch : DurableBatch Op} {origins : Nat → Option Origin}
    {sources : List CurrentStateSource} {view : Nat → Option CurrentStateRow}
    (hmissing : ∀ id ∈ currentStateIds batch, id ∉ sources.map (·.indexedId) → view id = none)
    {id : Nat} {s : Option CurrentStateRow × Bool}
    (h : rowRun applyImmutableBatches batch.seq origins
      ((sources.map (·.indexedId)).contains id) id batch.writes.zipIdx
      (foundRow sources view id, false) = .ok s) :
    ∃ known s', ((view id).isSome → known = true) ∧
      rowRun applyImmutableBatches batch.seq origins known id batch.writes.zipIdx (view id, false)
        = .ok s' ∧ s'.2 = s.2 ∧ (s.2 = true → s'.1 = s.1) := by
  by_cases hid : id ∈ sources.map (·.indexedId)
  · have hfound : foundRow sources view id = view id := if_pos hid
    rw [hfound] at h
    exact ⟨_, s, fun _ => by simpa using hid, h, rfl, fun _ => rfl⟩
  · by_cases hlisted : id ∈ currentStateIds batch
    · have hview := hmissing id hlisted hid
      have hfound : foundRow sources view id = view id := (if_neg hid).trans hview.symm
      rw [hfound] at h
      exact ⟨_, s, fun hs => absurd hs (by rw [hview]; decide), h, rfl, fun _ => rfl⟩
    · have hnone := unlisted_writes hlisted
      rw [rowRun_of_unlisted hnone] at h
      cases h
      exact ⟨true, (view id, false), fun _ => rfl, rowRun_of_unlisted hnone _, rfl, nofun⟩

theorem LiveAt.prepared {live : NativeLiveState} (hl : LiveAt db V db.head live)
    (h : Inv applyImmutableBatches digests db V) {fact : DeliveredCommit Op}
    {states : CurrentStates}
    (hstates : prepareCurrentStates applyImmutableBatches fact.batch fact.origins
      (liveSources (db.sources (currentStateIds fact.batch)) live) (fun _ _ => true)
      = .ok states) :
    (states.rows.map CurrentStateRow.id).Nodup ∧
    ∀ id, ∃ known s, ((V db.head id).isSome → known = true) ∧
      rowRun applyImmutableBatches fact.batch.seq fact.origins known id fact.batch.writes.zipIdx
        (V db.head id, false) = .ok s ∧
      ∀ r, r ∈ states.rows ∧ r.id = id ↔ s.2 = true ∧ s.1 = some r := by
  have hview : ∀ source ∈ liveSources (db.sources (currentStateIds fact.batch)) live,
      source.row = V db.head source.indexedId := by
    intro source hsource
    obtain ⟨origin, horigin, rfl⟩ := List.mem_map.mp hsource
    have hrow := (source_row (mem_sources.mp horigin).2).1
    dsimp only
    rw [hrow, Option.map_map]
    exact hl.found h _
  obtain ⟨hnodup, hrun⟩ := prepareCurrentStates_row
    (fun id r hr => (h.row (Nat.le_refl _) id r hr).1) hview hstates
  refine ⟨hnodup, fun id => ?_⟩
  obtain ⟨s, hs, hmem⟩ := hrun id
  have hfilter : (fact.batch.writes.zipIdx.filter fun _ => true) = fact.batch.writes.zipIdx :=
    List.filter_eq_self.mpr fun _ _ => rfl
  rw [hfilter] at hs
  have hmissing : ∀ id ∈ currentStateIds fact.batch,
      id ∉ (liveSources (db.sources (currentStateIds fact.batch)) live).map (·.indexedId) →
      V db.head id = none := by
    intro id hid hnot
    rw [← Option.not_isSome_iff_eq_none, ← h.isSome id]
    intro hsome
    have hsource := h.index id hsome
    rw [← source_isSome] at hsource
    obtain ⟨source, hsource⟩ := Option.isSome_iff_exists.mp hsource
    have hindexed := source_id hsource
    refine hnot ?_
    unfold liveSources
    rw [List.map_map]
    exact List.mem_map.mpr ⟨source, mem_sources.mpr (by rw [hindexed]; exact ⟨hid, hsource⟩), hindexed⟩
  obtain ⟨known, s', hknown, hs', hchanged, hvalue⟩ := foundRow_run hmissing hs
  refine ⟨known, s', hknown, hs', fun r => ?_⟩
  rw [hmem, hchanged]
  constructor
  · rintro ⟨hc, hv⟩
    exact ⟨hc, (hvalue hc).trans hv⟩
  · rintro ⟨hc, hv⟩
    exact ⟨hc, (hvalue hc).symm.trans hv⟩

/-- What a transaction changes in the tables for the rows that its commit leaves. -/
structure Projected (db : ProjectionTables Op D) (fact : DeliveredCommit Op)
    (rows : List CurrentStateRow) (db' : ProjectionTables Op D) : Prop where
  index : ∀ id, (db.index id).isSome → (db'.index id).isSome
  checkpointed : ∀ r ∈ rows, isPendingLiveRow r = false → (db'.index r.id).isSome ∧
    StoredAs r (db.current.get r.id) (db'.current.get r.id)
  pinned : ∀ r ∈ rows, isPendingLiveRow r = true →
    PinnedAs fact.position fact.batch.seq (db.current.get r.id) (db'.current.get r.id)
  other : ∀ id, id ∉ rows.map CurrentStateRow.id → db'.current.get id = db.current.get id
  created : ∀ record content, .documentCreate record content ∈ fact.batch.writes →
    isCurrentStateDocument record = false → db.index record.id = none

theorem nodup_filter {rows : List CurrentStateRow} (h : (rows.map CurrentStateRow.id).Nodup)
    (p : CurrentStateRow → Bool) : ((rows.filter p).map CurrentStateRow.id).Nodup :=
  h.sublist (List.filter_sublist.map _)

theorem projectIn_ok {fact : DeliveredCommit Op} {live : NativeLiveState}
    {db' : ProjectionTables Op D} {live' : NativeLiveState}
    (hnodup : ∀ live₀ states, initializeLive db live = .ok live₀ → live₀.through = some db.head →
      prepareCurrentStates applyImmutableBatches fact.batch fact.origins
        (liveSources (db.sources (currentStateIds fact.batch)) live₀) (fun _ _ => true)
        = .ok states → (states.rows.map CurrentStateRow.id).Nodup)
    (h : projectIn applyImmutableBatches digests db fact live = .ok (db', live')) :
    fact.batch.seq = db.head + 1 ∧
    ∃ live₀ states, initializeLive db live = .ok live₀ ∧ live₀.through = some db.head ∧
      prepareCurrentStates applyImmutableBatches fact.batch fact.origins
        (liveSources (db.sources (currentStateIds fact.batch)) live₀) (fun _ _ => true)
        = .ok states ∧
      db'.commits = db.commits ++ [digests.commitRow fact states.rows] ∧
      Projected db fact states.rows db' ∧
      live' = { (states.rows.filter isLiveRow).foldl NativeLiveState.take live₀ with
        through := some fact.batch.seq } := by
  unfold projectIn at h
  dsimp only at h
  split at h
  · cases h
  · rename_i hseq
    rw [not_or] at hseq
    obtain ⟨live₀, hinit, h⟩ := bind_eq_ok.mp h
    split at h
    · cases h
    · rename_i hthrough
      obtain ⟨states, hstates, h⟩ := bind_eq_ok.mp h
      split at h
      · cases h
      · obtain ⟨db₂, hindex, h⟩ := bind_eq_ok.mp h
        obtain ⟨db₃, hcheck, h⟩ := bind_eq_ok.mp h
        obtain ⟨db₄, hpin, h⟩ := bind_eq_ok.mp h
        cases h
        rw [not_not] at hthrough
        refine ⟨not_not.mp hseq.1, live₀, states, hinit, hthrough, hstates, ?_⟩
        have hrows := hnodup live₀ states hinit hthrough hstates
        obtain ⟨hc₂, ht₂, hi₂⟩ := indexBatch_ok hindex
        obtain ⟨hc₃, hi₃, hstored, hother₃⟩ := checkpointRows_ok (nodup_filter hrows _) hcheck
        have hdisjoint : ∀ r ∈ states.rows, ∀ q ∈ states.rows, r.id = q.id → r = q :=
          fun r hr q hq heq => List.inj_on_of_nodup_map hrows hr hq heq
        have hkept : ∀ row ∈ states.rows.filter isPendingLiveRow,
            db₃.current.get row.id = db.current.get row.id := by
          intro row hrow
          obtain ⟨hmem, hpend⟩ := List.mem_filter.mp hrow
          rw [hother₃, ht₂]
          intro hin
          obtain ⟨q, hq, hqid⟩ := List.mem_map.mp hin
          obtain ⟨hqm, hqp⟩ := List.mem_filter.mp hq
          rw [hdisjoint q hqm row hmem hqid, hpend] at hqp
          cases hqp
        obtain ⟨hc₄, hi₄, hpinned, hother₄⟩ := pinRows_ok (nodup_filter hrows _) hkept hpin
        refine ⟨by rw [hc₄, hc₃, hc₂], ⟨?_, ?_, ?_, ?_, ?_⟩, rfl⟩
        · intro id hid
          rw [hi₄]
          exact hi₃ id (hi₂ id hid)
        · intro r hr hpend
          obtain ⟨hri, hrs⟩ := hstored r (List.mem_filter.mpr ⟨hr, by rw [hpend]; rfl⟩)
          rw [hi₄]
          refine ⟨hri, ?_⟩
          rw [ht₂] at hrs
          rw [hother₄]
          · exact hrs
          · intro hin
            obtain ⟨q, hq, hqid⟩ := List.mem_map.mp hin
            obtain ⟨hqm, hqp⟩ := List.mem_filter.mp hq
            rw [hdisjoint q hqm r hr hqid, hpend] at hqp
            cases hqp
        · intro r hr hpend
          have hmem := List.mem_filter.mpr ⟨hr, hpend⟩
          rw [← hkept r hmem]
          exact hpinned r hmem
        · intro id hid
          rw [hother₄, hother₃, ht₂]
          · exact fun hin => hid ((List.filter_sublist.map _).subset hin)
          · exact fun hin => hid ((List.filter_sublist.map _).subset hin)
        · intro record content hw hcur
          obtain ⟨ordinal, hmem⟩ := exists_zipIdx hw
          refine indexBatch_created hindex hmem fun ho => ?_
          rw [prepareCurrentStates_omitted hstates hmem ho] at hcur
          cases hcur

def rowsAfter (rows : List CurrentStateRow) (view : Nat → Option CurrentStateRow) (id : Nat) :
    Option CurrentStateRow :=
  (rows.find? fun r => r.id = id).or (view id)

theorem rowsAfter_written {rows : List CurrentStateRow}
    (hnodup : (rows.map CurrentStateRow.id).Nodup) (view : Nat → Option CurrentStateRow)
    {r : CurrentStateRow} (hr : r ∈ rows) : rowsAfter rows view r.id = some r := by
  unfold rowsAfter
  cases hfind : rows.find? fun q => q.id = r.id with
  | none =>
    have := List.find?_eq_none.mp hfind r hr
    simp at this
  | some q =>
    have hq := List.find?_some hfind
    simp only [decide_eq_true_eq] at hq
    rw [List.inj_on_of_nodup_map hnodup (List.mem_of_find?_eq_some hfind) hr hq]
    rfl

theorem rowsAfter_other {rows : List CurrentStateRow} (view : Nat → Option CurrentStateRow)
    {id : Nat} (hid : id ∉ rows.map CurrentStateRow.id) : rowsAfter rows view id = view id := by
  unfold rowsAfter
  have hfind : rows.find? (fun r => r.id = id) = none := by
    rw [List.find?_eq_none]
    intro r hr heq
    simp only [decide_eq_true_eq] at heq
    exact hid (List.mem_map.mpr ⟨r, hr, heq⟩)
  rw [hfind, Option.none_or]

theorem rowsAfter_moves {live : NativeLiveState} (hl : LiveAt db V db.head live)
    (h : Inv applyImmutableBatches digests db V) {fact : DeliveredCommit Op}
    {states : CurrentStates}
    (hstates : prepareCurrentStates applyImmutableBatches fact.batch fact.origins
      (liveSources (db.sources (currentStateIds fact.batch)) live) (fun _ _ => true)
      = .ok states) {db' : ProjectionTables Op D}
    (hprojected : Projected db fact states.rows db') (id : Nat) :
    Moves applyImmutableBatches fact id (V db.head id) (rowsAfter states.rows (V db.head) id) ∧
      ∀ r ∈ states.rows, r.id = id → r.seq = fact.batch.seq ∧
        ∀ q, V db.head id = some q → r.kind = q.kind ∧
          (r.kind = .document → r.body.record = q.body.record ∧ r.createdSeq = q.createdSeq) := by
  obtain ⟨hnodup, hrun⟩ := hl.prepared h hstates
  obtain ⟨known, s, hknown, hs, hmem⟩ := hrun id
  have hfrom := (RowFrom.start fun q hq => (h.row (Nat.le_refl _) id q hq).1).run hs
  have hkeeps : ∀ r ∈ states.rows, r.id = id → ∀ q, V db.head id = some q →
      r.kind = q.kind ∧
        (r.kind = .document → r.body.record = q.body.record ∧ r.createdSeq = q.createdSeq) := by
    intro r hr hrid q hq
    obtain ⟨s1, s2⟩ := s
    obtain ⟨_, hs1⟩ := (hmem r).mp ⟨hr, hrid⟩
    dsimp only at hs1
    subst hs1
    rw [hq] at hs
    rw [hknown (by rw [hq]; rfl)] at hs
    cases hk : r.body with
    | document record version value =>
      have hrk : r.kind = .document := by simp [CurrentStateRow.kind, hk, CurrentBody.kind]
      obtain ⟨hqk, hrec, hcreated⟩ := rowRun_keeps hrk hs
      exact ⟨hrk.trans hqk.symm, fun _ => ⟨by rw [← hk, hrec], hcreated⟩⟩
    | submission sid value =>
      have hrk : r.kind = .value .submission := by
        simp [CurrentStateRow.kind, hk, CurrentBody.kind]
      refine ⟨?_, fun hd => by rw [hrk] at hd; cases hd⟩
      have hpend : isPendingLiveRow r = false := by simp [isPendingLiveRow, hk]
      have hstored := (hprojected.checkpointed r hr hpend).2
      rw [hrid] at hstored
      have hsome := h.isSome id
      rw [hq] at hsome
      obtain ⟨e, he⟩ := Option.isSome_iff_exists.mp hsome
      rw [he] at hstored
      have ht := h.table id
      rw [he] at ht
      obtain ⟨row, replay⟩ := e
      cases replay with
      | none =>
        have hv : V db.head id = some row := ht
        rw [hq] at hv
        cases hv
        exact hstored.1.symm
      | some reference =>
        have hlive := (show Pinned db.commits V id row reference from ht).live
        have hrowk : row.kind = .value .submission := hstored.1.trans hrk
        unfold isLiveRow at hlive
        unfold CurrentStateRow.kind at hrowk
        cases hb : row.body with
        | submission =>
          rw [hb] at hlive
          cases hlive
        | document =>
          rw [hb] at hrowk
          cases hrowk
  have hafter : rowsAfter states.rows (V db.head) id = s.1 := by
    cases hchanged : s.2 with
    | true =>
      obtain ⟨r, hr, _⟩ := hfrom.written hchanged
      obtain ⟨hrm, rfl⟩ := (hmem r).mpr ⟨hchanged, hr⟩
      rw [rowsAfter_written hnodup _ hrm, hr]
    | false =>
      rw [rowsAfter_other, hfrom.untouched hchanged]
      intro hin
      obtain ⟨r, hr, hrid⟩ := List.mem_map.mp hin
      have := ((hmem r).mp ⟨hr, hrid⟩).1
      rw [hchanged] at this
      cases this
  refine ⟨⟨known, s.2, hknown, by rw [hafter]; exact hs, ?_⟩, fun r hr hrid => ⟨?_, ?_⟩⟩
  · intro q r hq hr
    by_cases hin : id ∈ states.rows.map CurrentStateRow.id
    · obtain ⟨p, hp, rfl⟩ := List.mem_map.mp hin
      rw [rowsAfter_written hnodup _ hp] at hr
      cases hr
      exact (hkeeps _ hp rfl q hq).1
    · rw [rowsAfter_other _ hin, hq] at hr
      cases hr
      rfl
  · obtain ⟨hc, hv⟩ := (hmem r).mp ⟨hr, hrid⟩
    obtain ⟨p, hp, hps⟩ := hfrom.written hc
    rw [hv] at hp
    cases hp
    exact hps
  · exact hkeeps r hr hrid

def extend (V : Nat → Nat → Option CurrentStateRow) (n : Nat)
    (after : Nat → Option CurrentStateRow) (k : Nat) : Nat → Option CurrentStateRow :=
  if k ≤ n then V k else after

theorem extend_old {n k : Nat} {after : Nat → Option CurrentStateRow} (h : k ≤ n) :
    extend V n after k = V k := if_pos h

theorem extend_new {n : Nat} {after : Nat → Option CurrentStateRow} :
    extend V n after (n + 1) = after := if_neg (by omega)

theorem lookup_map {rows : List CurrentStateRow} (hnodup : (rows.map CurrentStateRow.id).Nodup)
    (f : CurrentStateRow → D) {r : CurrentStateRow} (hr : r ∈ rows) :
    (rows.map fun q => (q.id, f q)).lookup r.id = some (f r) := by
  induction rows with
  | nil => cases hr
  | cons q rows ih =>
    rw [List.map_cons, List.nodup_cons] at hnodup
    rw [List.map_cons, List.lookup_cons]
    obtain rfl | hr := List.mem_cons.mp hr
    · rw [beq_self_eq_true]
    · have hne : (r.id == q.id) = false := by
        rw [beq_eq_false_iff_ne]
        exact fun heq => hnodup.1 (heq ▸ List.mem_map_of_mem hr)
      rw [hne]
      exact ih hnodup.2 hr

theorem concat_cases {α : Type} {l : List α} {x v : α} {k : Nat} (h : (l ++ [x])[k]? = some v) :
    (k < l.length ∧ l[k]? = some v) ∨ (k = l.length ∧ v = x) := by
  by_cases hk : k < l.length
  · rw [List.getElem?_append_left hk] at h
    exact .inl ⟨hk, h⟩
  · have hlt := (List.getElem?_eq_some_iff.mp h).1
    rw [List.length_append, List.length_singleton] at hlt
    have hk' : k = l.length := by omega
    subst hk'
    rw [List.getElem?_concat_length] at h
    cases h
    exact .inr ⟨rfl, rfl⟩

theorem Chain.extend {c : CommitRow Op D} {commits : List (CommitRow Op D)}
    (h : Chain applyImmutableBatches commits V) {after : Nat → Option CurrentStateRow}
    (hseq : c.fact.batch.seq = commits.length + 1)
    (hmoves : ∀ id, Moves applyImmutableBatches c.fact id (V commits.length id) (after id)) :
    Chain applyImmutableBatches (commits ++ [c]) (extend V commits.length after) := by
  refine ⟨fun id => by rw [extend_old (Nat.zero_le _)]; exact h.start id, fun k d hd => ?_⟩
  obtain ⟨hk, hd⟩ | ⟨rfl, rfl⟩ := concat_cases hd
  · rw [extend_old (Nat.le_of_lt hk), extend_old hk]
    exact h.step k d hd
  · rw [extend_old (Nat.le_refl _), extend_new]
    exact ⟨hseq, hmoves⟩

theorem Pinned.extend {commits : List (CommitRow Op D)} {id : Nat} {row : CurrentStateRow}
    {reference : ReplayReference} (hp : Pinned commits V id row reference) {c : CommitRow Op D}
    {after : Nat → Option CurrentStateRow} {r : CurrentStateRow} (hr : after id = some r)
    (hpend : isPendingLiveRow r = true)
    (hpos : r.seq = commits.length + 1 → reference.topic = c.fact.position.topic ∧
      reference.partition = c.fact.position.partition ∧
      reference.offset ≤ c.fact.position.offset) :
    Pinned (commits ++ [c]) (extend V commits.length after) id row reference := by
  have hbound := hp.bound
  refine ⟨hp.pos, ?_, ?_, hp.live, fun k d hd hk => ?_⟩
  · rw [List.length_append]
    omega
  · rw [extend_old (by omega)]
    exact hp.before
  · obtain ⟨hlt, hd⟩ | ⟨rfl, rfl⟩ := concat_cases hd
    · rw [extend_old hlt]
      exact hp.pending k d hd hk
    · rw [extend_new]
      exact ⟨r, hr, hpend, hpos⟩

theorem isLiveRow_of_record {q r : CurrentStateRow} (h : r.body.record = q.body.record) :
    isLiveRow r = isLiveRow q := by
  unfold isLiveRow
  cases hr : r.body with
  | submission =>
    cases hq : q.body with
    | submission => rfl
    | document =>
      rw [hr, hq] at h
      cases h
  | document =>
    cases hq : q.body with
    | submission =>
      rw [hr, hq] at h
      cases h
    | document =>
      rw [hr, hq] at h
      cases h
      rfl

theorem isPendingLiveRow.kind {r : CurrentStateRow} (h : isPendingLiveRow r = true) :
    r.kind = .document := by
  unfold isPendingLiveRow at h
  unfold CurrentStateRow.kind
  cases hb : r.body with
  | submission =>
    rw [hb] at h
    cases h
  | document => rfl

theorem Inv.project {live : NativeLiveState} (h : Inv applyImmutableBatches digests db V)
    (hl : LiveAt db V db.head live) {fact : DeliveredCommit Op}
    {states : CurrentStates}
    (hstates : prepareCurrentStates applyImmutableBatches fact.batch fact.origins
      (liveSources (db.sources (currentStateIds fact.batch)) live) (fun _ _ => true)
      = .ok states) {db' : ProjectionTables Op D}
    (hseq : fact.batch.seq = db.head + 1)
    (hcommits : db'.commits = db.commits ++ [digests.commitRow fact states.rows])
    (hprojected : Projected db fact states.rows db') :
    Inv applyImmutableBatches digests db'
      (extend V db.head (rowsAfter states.rows (V db.head))) := by
  have hnodup := (hl.prepared h hstates).1
  have hmoves := rowsAfter_moves hl h hstates hprojected
  have hother : ∀ id, id ∉ states.rows.map CurrentStateRow.id →
      rowsAfter states.rows (V db.head) id = V db.head id := fun id => rowsAfter_other _
  have hlen : db'.commits.length = db.head + 1 := by
    rw [hcommits, List.length_append]
    rfl
  have hchain : Chain applyImmutableBatches (db.commits ++ [digests.commitRow fact states.rows])
      (extend V db.head (rowsAfter states.rows (V db.head))) :=
    h.chain.extend hseq fun id => (hmoves id).1
  refine ⟨by rw [hcommits]; exact hchain, ?_, fun id => ?_, fun id hid => ?_, ?_⟩
  · intro k c hc
    rw [hcommits] at hc
    obtain ⟨hk, hc⟩ | ⟨rfl, rfl⟩ := concat_cases hc
    · rw [extend_old (show k + 1 ≤ db.head from hk)]
      exact h.commit k c hc
    · refine ⟨rfl, fun id r hr hrs => ?_⟩
      rw [show db.commits.length + 1 = db.head + 1 from rfl, extend_new] at hr
      by_cases hin : id ∈ states.rows.map CurrentStateRow.id
      · obtain ⟨q, hq, rfl⟩ := List.mem_map.mp hin
        rw [rowsAfter_written hnodup _ hq] at hr
        cases hr
        exact lookup_map hnodup digests.row hq
      · rw [hother id hin] at hr
        have := (h.row (Nat.le_refl _) id r hr).2
        unfold ProjectionTables.head at this
        omega
  · have ht := h.table id
    by_cases hin : id ∈ states.rows.map CurrentStateRow.id
    · obtain ⟨r, hr, rfl⟩ := List.mem_map.mp hin
      have hafter := rowsAfter_written hnodup (V db.head) hr
      obtain ⟨hrs, hkept⟩ := (hmoves r.id).2 r hr rfl
      have hrow : V db.head r.id = V db.commits.length r.id := rfl
      cases hpend : isPendingLiveRow r with
      | false =>
        have hstored := (hprojected.checkpointed r hr hpend).2
        have hget : db'.current.get r.id = some { row := r } := by
          unfold StoredAs at hstored
          cases hfound : db.current.get r.id with
          | none =>
            rw [hfound] at hstored
            exact hstored
          | some e =>
            rw [hfound] at hstored ht
            dsimp only at hstored
            rw [hstored.2]
            obtain ⟨i, hi, hrowi⟩ := h.entryAt hfound
            have hold : extend V db.head (rowsAfter states.rows (V db.head)) i r.id
                = some e.row := by rw [extend_old hi, hrowi]
            have hnew : extend V db.head (rowsAfter states.rows (V db.head)) (db.head + 1) r.id
                = some r := by rw [extend_new, hafter]
            have hbound : db.head + 1 ≤ (db.commits ++ [digests.commitRow fact states.rows]).length := by
              rw [List.length_append]
              exact Nat.le_refl _
            rw [(hchain.keeps (Nat.le_succ_of_le hi) hbound hold hnew).2.1]
        rw [hget]
        show extend V db.head _ db'.commits.length r.id = some r
        rw [hlen, extend_new, hafter]
      | true =>
        obtain ⟨e, he, hpinned⟩ := hprojected.pinned r hr hpend
        rw [he] at ht
        obtain ⟨row, replay⟩ := e
        cases replay with
        | some reference =>
          dsimp only at hpinned
          rw [hpinned.1, he, hcommits]
          exact Pinned.extend ht hafter hpend fun _ => hpinned.2
        | none =>
          dsimp only at hpinned
          rw [hpinned, hcommits]
          have hv : V db.head r.id = some row := ht
          have hrec := ((hkept row hv).2 (isPendingLiveRow.kind hpend)).1
          refine ⟨show 1 ≤ fact.batch.seq by omega, ?_, ?_, ?_, fun k c hc hk => ?_⟩
          · rw [hseq, List.length_append]
            exact Nat.le_refl _
          · rw [hseq, Nat.add_sub_cancel, extend_old (Nat.le_refl _)]
            exact hv
          · rw [← isLiveRow_of_record hrec]
            exact isPendingLiveRow.live hpend
          · replace hk : db.commits.length + 1 ≤ k + 1 := hseq ▸ hk
            obtain ⟨hlt, _⟩ | ⟨rfl, rfl⟩ := concat_cases hc
            · omega
            refine ⟨r, ?_, hpend, fun _ => ⟨rfl, rfl, Nat.le_refl _⟩⟩
            rw [show db.commits.length + 1 = db.head + 1 from rfl, extend_new]
            exact hafter
    · rw [hprojected.other id hin]
      have hafter := hother id hin
      have hlast : extend V db.head (rowsAfter states.rows (V db.head)) db'.commits.length id
          = V db.head id := by rw [hlen, extend_new, hafter]
      cases hget : db.current.get id with
      | none =>
        rw [hget] at ht
        exact hlast.trans ht
      | some e =>
        rw [hget] at ht
        obtain ⟨row, replay⟩ := e
        cases replay with
        | none => exact hlast.trans ht
        | some reference =>
          have hp : Pinned db.commits V id row reference := ht
          obtain ⟨r, hr, hpend⟩ := hp.latest hp.bound (Nat.le_refl _)
          rw [hcommits]
          refine Pinned.extend hp (hafter.trans hr) hpend fun hrs => ?_
          have hle := (h.row (Nat.le_refl _) id r hr).2
          unfold ProjectionTables.head at hle
          omega
  · by_cases hin : id ∈ states.rows.map CurrentStateRow.id
    · obtain ⟨r, hr, rfl⟩ := List.mem_map.mp hin
      cases hpend : isPendingLiveRow r with
      | false => exact (hprojected.checkpointed r hr hpend).1
      | true =>
        obtain ⟨e, he, _⟩ := hprojected.pinned r hr hpend
        exact hprojected.index _ (h.index _ (by rw [he]; rfl))
    · rw [hprojected.other id hin] at hid
      exact hprojected.index id (h.index id hid)
  · intro k c hc id hid record content hw hrec
    rw [hcommits] at hc
    obtain ⟨hk, hc⟩ | ⟨rfl, rfl⟩ := concat_cases hc
    · rw [extend_old (show k ≤ db.head from Nat.le_of_lt hk)] at hid
      exact h.created k c hc id hid record content hw hrec
    · rw [show db.commits.length = db.head from rfl, extend_old (Nat.le_refl _)] at hid
      obtain ⟨known, changed, hknown, hrun, _⟩ := (hmoves id).1
      rw [hknown hid] at hrun
      obtain ⟨ordinal, hmem⟩ := exists_zipIdx hw
      have hnone := hprojected.created record content hw (rowRun_created hmem hrec hrun)
      have hsome := h.index id ((h.isSome id).trans hid)
      rw [hrec] at hnone
      rw [hnone] at hsome
      cases hsome

theorem take_rows {rows : List CurrentStateRow} (hnodup : (rows.map CurrentStateRow.id).Nodup)
    (live : NativeLiveState) :
    (rows.foldl NativeLiveState.take live).through = live.through ∧
      (∀ r ∈ rows, (rows.foldl NativeLiveState.take live).rows r.id
        = if isPendingLiveRow r then some r else none) ∧
      ∀ id, id ∉ rows.map CurrentStateRow.id →
        (rows.foldl NativeLiveState.take live).rows id = live.rows id := by
  induction rows generalizing live with
  | nil => exact ⟨rfl, by simp, fun _ _ => rfl⟩
  | cons r rows ih =>
    rw [List.map_cons, List.nodup_cons] at hnodup
    obtain ⟨hthrough, hrows, hother⟩ := ih hnodup.2 (live.take r)
    rw [List.foldl_cons]
    refine ⟨hthrough, ?_, ?_⟩
    · intro q hq
      obtain rfl | hq := List.mem_cons.mp hq
      · rw [hother _ hnodup.1]
        exact Function.update_self ..
      · exact hrows q hq
    · intro id hid
      rw [List.map_cons, List.mem_cons, not_or] at hid
      rw [hother id hid.2]
      exact Function.update_of_ne hid.1 ..

theorem LiveAt.project {live : NativeLiveState} (hl : LiveAt db V db.head live)
    (h : Inv applyImmutableBatches digests db V) {fact : DeliveredCommit Op}
    {rows : List CurrentStateRow} {db' : ProjectionTables Op D}
    (hnodup : (rows.map CurrentStateRow.id).Nodup) (hseq : fact.batch.seq = db.head + 1)
    (hcommits : db'.commits = db.commits ++ [digests.commitRow fact rows])
    (hprojected : Projected db fact rows db')
    (h' : Inv applyImmutableBatches digests db' (extend V db.head (rowsAfter rows (V db.head)))) :
    LiveAt db' (extend V db.head (rowsAfter rows (V db.head))) db'.head
      { (rows.filter isLiveRow).foldl NativeLiveState.take live with
        through := some fact.batch.seq } := by
  have hhead : db'.head = db.head + 1 := by
    unfold ProjectionTables.head
    rw [hcommits, List.length_append]
    rfl
  obtain ⟨_, htaken, hleft⟩ := take_rows (nodup_filter hnodup isLiveRow) live
  refine ⟨congrArg some (hseq.trans hhead.symm), Nat.le_refl _, fun id => ?_⟩
  dsimp only
  rw [hhead]
  unfold memoryRow
  by_cases hin : id ∈ rows.map CurrentStateRow.id
  · obtain ⟨r, hr, rfl⟩ := List.mem_map.mp hin
    have hafter : extend V db.head (rowsAfter rows (V db.head)) (db.head + 1) r.id = some r := by
      rw [extend_new, rowsAfter_written hnodup _ hr]
    have ht' := h'.table r.id
    cases hpend : isPendingLiveRow r with
    | true =>
      have hmem := List.mem_filter.mpr ⟨hr, isPendingLiveRow.live hpend⟩
      rw [htaken r hmem, if_pos hpend]
      obtain ⟨e, he, hpinned⟩ := hprojected.pinned r hr hpend
      obtain ⟨row, replay⟩ := e
      cases replay with
      | some reference =>
        dsimp only at hpinned
        rw [he] at hpinned
        rw [hpinned.1] at ht' ⊢
        dsimp only
        have hp : Pinned _ _ _ _ _ := ht'
        rw [if_pos (hhead ▸ hp.bound), hafter]
      | none =>
        dsimp only at hpinned
        rw [hpinned] at ht' ⊢
        dsimp only
        have hp : Pinned _ _ _ _ _ := ht'
        rw [if_pos (hhead ▸ hp.bound), hafter]
    | false =>
      have hstored := (hprojected.checkpointed r hr hpend).2
      obtain ⟨stored, hget⟩ : ∃ stored, db'.current.get r.id = some { row := stored } := by
        unfold StoredAs at hstored
        split at hstored
        · exact ⟨_, hstored⟩
        · exact ⟨_, hstored.2⟩
      rw [hget]
      cases hlive : isLiveRow r with
      | true =>
        rw [htaken r (List.mem_filter.mpr ⟨hr, hlive⟩), if_neg (by rw [hpend]; decide)]
      | false =>
        have hnot : r.id ∉ (rows.filter isLiveRow).map CurrentStateRow.id := by
          intro hmem
          obtain ⟨q, hq, hqid⟩ := List.mem_map.mp hmem
          obtain ⟨hqm, hql⟩ := List.mem_filter.mp hq
          rw [List.inj_on_of_nodup_map hnodup hqm hr hqid, hlive] at hql
          cases hql
        rw [hleft _ hnot, hl.rows]
        -- a pinned document of this identity would be live, and so would this row
        cases hfound : db.current.get r.id with
        | none => rfl
        | some e =>
          obtain ⟨row, replay⟩ := e
          cases replay with
          | none => rfl
          | some reference =>
            have ht := h.table r.id
            rw [hfound] at ht
            have hp : Pinned db.commits V r.id row reference := ht
            obtain ⟨i, hi, hrowi⟩ := h.entryAt hfound
            have hold : extend V db.head (rowsAfter rows (V db.head)) i r.id = some row := by
              rw [extend_old hi, hrowi]
            have hrec := (h'.chain.keeps (show i ≤ db.head + 1 by omega)
              (by rw [← hhead]; exact Nat.le_refl _) hold hafter).2.2
            rw [isLiveRow_of_record hrec.symm, hp.live] at hlive
            cases hlive
  · have hnot : id ∉ (rows.filter isLiveRow).map CurrentStateRow.id := fun hmem =>
      hin ((List.filter_sublist.map _).subset hmem)
    rw [hleft id hnot, hl.rows, hprojected.other id hin]
    unfold memoryRow
    cases hfound : db.current.get id with
    | none => rfl
    | some e =>
      obtain ⟨row, replay⟩ := e
      cases replay with
      | none => rfl
      | some reference =>
        have ht := h.table id
        rw [hfound] at ht
        have hb : reference.seq ≤ db.head := (show Pinned db.commits V id row reference from ht).bound
        dsimp only
        rw [if_pos hb, if_pos (Nat.le_succ_of_le hb), extend_new, rowsAfter_other _ hin]

def Memory (db : ProjectionTables Op D) (V : Nat → Nat → Option CurrentStateRow)
    (live : NativeLiveState) : Prop :=
  (∃ t, LiveAt db V t live) ∨ live = {}

theorem Memory.initialize {live : NativeLiveState} (hm : Memory db V live)
    (h : Inv applyImmutableBatches digests db V) :
    ∃ live₀ t, initializeLive db live = .ok live₀ ∧ LiveAt db V t live₀ ∧
      (live = live₀ ∨ live = {} ∧ t = protectedThrough db) := by
  obtain ⟨t, hl⟩ | rfl := hm
  · refine ⟨live, t, ?_, hl, .inl rfl⟩
    unfold initializeLive
    rw [hl.through]
  · obtain ⟨live₀, hinit, hl⟩ := h.initialize
    exact ⟨live₀, _, hinit, hl, .inr ⟨rfl, rfl⟩⟩

theorem projectIn_keeps {live live' : NativeLiveState} {db' : ProjectionTables Op D}
    {fact : DeliveredCommit Op} (hm : Memory db V live)
    (h : Inv applyImmutableBatches digests db V)
    (hok : projectIn applyImmutableBatches digests db fact live = .ok (db', live')) :
    ∃ V', (∀ k ≤ db.head, V' k = V k) ∧ Inv applyImmutableBatches digests db' V' ∧
      LiveAt db' V' db'.head live' ∧
      ∃ rows, db'.commits = db.commits ++ [digests.commitRow fact rows] := by
  obtain ⟨live₀, t, hinit, hl, _⟩ := hm.initialize h
  have hat : ∀ live₁, initializeLive db live = .ok live₁ → live₁.through = some db.head →
      LiveAt db V db.head live₁ := by
    intro live₁ hlive₁ hthrough
    rw [hinit] at hlive₁
    cases hlive₁
    rw [hl.through] at hthrough
    cases hthrough
    exact hl
  obtain ⟨hseq, live₁, states, hlive₁, hthrough, hstates, hcommits, hprojected, rfl⟩ :=
    projectIn_ok (fun live₁ states h₁ h₂ h₃ => ((hat live₁ h₁ h₂).prepared h h₃).1) hok
  have hl₁ := hat live₁ hlive₁ hthrough
  have hnodup := (hl₁.prepared h hstates).1
  have h' := h.project hl₁ hstates hseq hcommits hprojected
  exact ⟨_, fun k hk => extend_old hk, h',
    hl₁.project h hnodup hseq hcommits hprojected h', states.rows, hcommits⟩

end Inv

end Durable
end PiCloud
