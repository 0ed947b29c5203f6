import PiCloud.Durable.FoldedState

/-!
# Durable.LiveRecovery

A projector that can lose its memory at any time, and the log from which it gets it back.

* `replay_keeps`: the commit after the ones that the memory has seen is replayed without error.
* `Consumer.step`: a new commit, an old one delivered again, a handoff, or a loss of the memory with
  a start inside the protected suffix.
* `live_recovery`: whatever is lost and when, the projector ends where it would have ended anyway.
-/

namespace PiCloud
namespace Durable

open Lib ProjectionTables

section Replay

variable {Op D : Type}
  {applyImmutableBatches : Members → List (List Op) → Except String Members}
  {digests : Digests Op D} {db : ProjectionTables Op D}
  {V : Nat → Nat → Option CurrentStateRow} {t : Nat} {live : NativeLiveState}

def replayView (db : ProjectionTables Op D) (live : NativeLiveState) (id : Nat) :
    Option CurrentStateRow :=
  (db.current.get id).map fun e => liveRow live id e.row

/-- A pinned document that the commit after `t` is to be replayed for. -/
def Replayed (db : ProjectionTables Op D) (t id : Nat) : Prop :=
  ∃ row reference, db.current.get id = some ⟨row, some reference⟩ ∧ reference.seq ≤ t + 1

theorem replayView_rowOf (h : Inv applyImmutableBatches digests db V) (hl : LiveAt db V t live)
    (id : Nat) (r : CurrentStateRow) (hr : replayView db live id = some r) : RowOf id r := by
  unfold replayView at hr
  obtain ⟨e, he, rfl⟩ := Option.map_eq_some_iff.mp hr
  obtain ⟨i, hi, hrow⟩ := h.entryAt he
  have hrowOf := (h.row hi id e.row hrow).1
  unfold liveRow
  split
  · exact hrowOf
  · rename_i cached hcached
    split
    · exact hrowOf
    · rw [hl.rows, he] at hcached
      unfold memoryRow at hcached
      obtain ⟨row, replay⟩ := e
      cases replay with
      | none => cases hcached
      | some reference =>
        dsimp only at hcached
        split at hcached
        · exact (h.row hl.bound id cached hcached).1
        · cases hcached
          exact hrowOf

theorem replayView_replayed (h : Inv applyImmutableBatches digests db V) (hl : LiveAt db V t live)
    {id : Nat} (hid : Replayed db t id) : replayView db live id = V t id := by
  obtain ⟨row, reference, hget, hs⟩ := hid
  obtain ⟨r, hr, _, hrow⟩ := hl.pinned h hget hs
  unfold replayView
  rw [hget, Option.map_some, hrow, hr]

theorem replayed_run (h : Inv applyImmutableBatches digests db V) {c : CommitRow Op D}
    (hc : db.commits[t]? = some c) {id : Nat} (hid : Replayed db t id)
    (hlisted : id ∈ currentStateIds c.fact.batch) :
    ∃ r, V (t + 1) id = some r ∧ isPendingLiveRow r = true ∧ r.seq = t + 1 ∧
      rowRun applyImmutableBatches c.fact.batch.seq c.fact.origins true id
        c.fact.batch.writes.zipIdx (V t id, false) = .ok (some r, true) := by
  obtain ⟨row, reference, hget, hs⟩ := hid
  have hp : Pinned db.commits V id row reference := by
    have := h.table id
    rwa [hget] at this
  obtain ⟨r, hr, hpend, _⟩ := hp.pending t c hc hs
  obtain ⟨hseq, hmoves⟩ := h.chain.step t c hc
  obtain ⟨known, changed, hknown, hrun, _⟩ := hmoves id
  have hlt : t < db.commits.length := (List.getElem?_eq_some_iff.mp hc).1
  have hpos := hp.pos
  obtain ⟨q, hq, _⟩ := h.chain.mono (show reference.seq - 1 ≤ t by omega) (by omega) hp.before
  have hsome : (V t id).isSome := by rw [hq]; rfl
  rw [hknown hsome, hr] at hrun
  obtain ⟨w, hw, hwid⟩ := mem_currentStateIds.mp hlisted
  have hwid' := currentStateId_eq hwid
  obtain ⟨ordinal, hmem⟩ := exists_zipIdx hw
  have hedit : w.isEdit = true := by
    cases w with
    | documentChange => rfl
    | documentRetire => rfl
    | documentCopy => cases hwid
    | documentCreate record content => exact absurd hwid' (h.created t c hc id hsome _ _ hw)
    | value kind wid value =>
      cases kind with
      | submission =>
        obtain ⟨p, hp', hk⟩ := rowRun_submits hsome ⟨_, hmem, hwid', rfl⟩ hrun
        cases hp'
        rw [isPendingLiveRow.kind hpend] at hk
        cases hk
      | conversation => cases hwid
      | entry => cases hwid
      | task => cases hwid
  have hchanged : changed = true :=
    rowRun_edited hsome (.inl ⟨_, hmem, hwid', hedit⟩) hrun
  subst hchanged
  have hle : t ≤ db.head := Nat.le_of_lt hlt
  have hfrom := (RowFrom.start fun p hp => (h.row hle id p hp).1).run hrun
  obtain ⟨p, hp', hps⟩ := hfrom.written rfl
  cases hp'
  exact ⟨r, hr, hpend, hps.trans hseq, hrun⟩

theorem eligible_sources (h : Inv applyImmutableBatches digests db V) (hl : LiveAt db V t live)
    {c : CommitRow Op D} (hc : db.commits[t]? = some c) {sources : List CurrentStateSource}
    (hsources : ∀ source ∈ sources, source.indexedId ∈ currentStateIds c.fact.batch ∧
      db.source source.indexedId = some source) (eligible : List Nat) :
    ∃ eligible', sources.foldlM (eligibleRow c.fact.batch.seq c.fact.position) (live, eligible)
        = .ok (live, eligible') ∧
      ∀ id, id ∈ eligible' ↔
        id ∈ eligible ∨ id ∈ sources.map (·.indexedId) ∧ Replayed db t id := by
  have hseq := (h.chain.step t c hc).1
  induction sources generalizing eligible with
  | nil => exact ⟨eligible, rfl, by simp⟩
  | cons source sources ih =>
    obtain ⟨hlisted, hsource⟩ := hsources source List.mem_cons_self
    have hrest := ih fun s hs => hsources s (List.mem_cons_of_mem _ hs)
    obtain ⟨hrow, hreplay⟩ := source_row hsource
    rw [List.foldlM_cons]
    -- a source that is not to be replayed
    have hskip : eligibleRow c.fact.batch.seq c.fact.position (live, eligible) source
          = .ok (live, eligible) → ¬ Replayed db t source.indexedId →
        ∃ eligible', (eligibleRow c.fact.batch.seq c.fact.position (live, eligible) source >>=
            fun s => sources.foldlM (eligibleRow c.fact.batch.seq c.fact.position) s)
            = .ok (live, eligible') ∧
          ∀ id, id ∈ eligible' ↔ id ∈ eligible ∨
            id ∈ (source :: sources).map (·.indexedId) ∧ Replayed db t id := by
      intro hok hnot
      obtain ⟨eligible', hfold, hmem⟩ := hrest eligible
      rw [hok]
      refine ⟨eligible', hfold, fun id => ?_⟩
      rw [hmem, List.map_cons, List.mem_cons]
      constructor
      · rintro (hid | ⟨hid, hr⟩)
        · exact .inl hid
        · exact .inr ⟨.inr hid, hr⟩
      · rintro (hid | ⟨rfl | hid, hr⟩)
        · exact .inl hid
        · exact absurd hr hnot
        · exact .inr ⟨hid, hr⟩
    cases hget : db.current.get source.indexedId with
    | none =>
      refine hskip ?_ ?_
      · unfold eligibleRow
        rw [hrow, hget]
        rfl
      · rintro ⟨row, reference, hget', _⟩
        rw [hget] at hget'
        cases hget'
    | some e =>
      obtain ⟨row, replay⟩ := e
      rw [hget] at hrow hreplay
      cases replay with
      | none =>
        refine hskip ?_ ?_
        · unfold eligibleRow
          have hnone : live.rows source.indexedId = none := by
            rw [hl.rows, hget]
            rfl
          dsimp only
          rw [hrow, hreplay]
          dsimp only [Option.map_some, Option.bind_some]
          rw [hnone]
          split <;> rfl
        · rintro ⟨row', reference, hget', _⟩
          rw [hget] at hget'
          cases hget'
      | some reference =>
        have hp : Pinned db.commits V source.indexedId row reference := by
          have := h.table source.indexedId
          rwa [hget] at this
        have hpos := hp.pos
        have hb : reference.seq - 1 ≤ db.head := by
          have := hp.bound
          unfold ProjectionTables.head
          omega
        have hrs := (h.row hb _ row hp.before).2
        by_cases hs : reference.seq ≤ t + 1
        · have hreplayed : Replayed db t source.indexedId := ⟨row, reference, hget, hs⟩
          obtain ⟨q, hq, hcached, _⟩ := hl.pinned h hget hs
          have hqs := (h.row hl.bound _ q hq).2
          obtain ⟨r, hr, hpend, hrseq, _⟩ := replayed_run h hc hreplayed hlisted
          obtain ⟨r', hr', _, hposition⟩ := hp.pending t c hc hs
          rw [hr] at hr'
          cases hr'
          obtain ⟨htopic, hpartition, hoffset⟩ := hposition hrseq
          have hstep : eligibleRow c.fact.batch.seq c.fact.position (live, eligible) source
              = .ok (live, eligible ++ [source.indexedId]) := by
            unfold eligibleRow
            dsimp only
            rw [hrow, hreplay]
            dsimp only [Option.map_some, Option.bind_some]
            rw [hp.live, hcached, hseq]
            dsimp only [Option.map_some, Option.getD_some, Bool.not_true]
            rw [if_neg (by decide), if_neg (by omega), if_neg]
            rintro (hne | hne | hlt)
            · exact hne htopic
            · exact hne hpartition
            · omega
          obtain ⟨eligible', hfold, hmem⟩ := hrest (eligible ++ [source.indexedId])
          rw [hstep]
          refine ⟨eligible', hfold, fun id => ?_⟩
          rw [hmem, List.mem_append, List.mem_singleton, List.map_cons, List.mem_cons]
          constructor
          · rintro ((hid | rfl) | ⟨hid, hr⟩)
            · exact .inl hid
            · exact .inr ⟨.inl rfl, hreplayed⟩
            · exact .inr ⟨.inr hid, hr⟩
          · rintro (hid | ⟨rfl | hid, hr⟩)
            · exact .inl (.inl hid)
            · exact .inl (.inr rfl)
            · exact .inr ⟨hid, hr⟩
        · refine hskip ?_ ?_
          · unfold eligibleRow
            dsimp only
            rw [hrow, hreplay]
            dsimp only [Option.map_some, Option.bind_some]
            rw [hp.live, hseq, if_neg (by decide), if_pos (.inl (by omega))]
          · rintro ⟨row', reference', hget', hs'⟩
            rw [hget] at hget'
            cases hget'
            exact hs hs'

theorem unlisted_row (h : Inv applyImmutableBatches digests db V) {c : CommitRow Op D}
    (hc : db.commits[t]? = some c) {id : Nat} (hid : id ∉ currentStateIds c.fact.batch) :
    V (t + 1) id = V t id := by
  obtain ⟨known, changed, _, hrun, _⟩ := (h.chain.step t c hc).2 id
  rw [rowRun_of_unlisted (unlisted_writes hid)] at hrun
  exact (congrArg Prod.fst (Except.ok.inj hrun)).symm

theorem replay_prepared (h : Inv applyImmutableBatches digests db V) (hl : LiveAt db V t live)
    {c : CommitRow Op D} (hc : db.commits[t]? = some c) {eligible : List Nat}
    (heligible : ∀ id, id ∈ eligible ↔
      id ∈ (db.sources (currentStateIds c.fact.batch)).map (·.indexedId) ∧ Replayed db t id) :
    ∃ states, prepareCurrentStates applyImmutableBatches c.fact.batch (fun _ => none)
        (liveSources ((db.sources (currentStateIds c.fact.batch)).filter (·.row.isSome)) live)
        (fun write _ => write.isEdit && eligible.contains write.id) = .ok states ∧
      (states.rows.map CurrentStateRow.id).Nodup ∧
      (∀ r ∈ states.rows, r.id ∈ eligible ∧ V (t + 1) r.id = some r ∧ r.seq = t + 1 ∧
        isPendingLiveRow r = true) ∧
      ∀ id ∈ eligible, id ∈ states.rows.map CurrentStateRow.id := by
  have hseq := (h.chain.step t c hc).1
  have hview : ∀ source ∈ liveSources
      ((db.sources (currentStateIds c.fact.batch)).filter (·.row.isSome)) live,
      source.row = replayView db live source.indexedId ∧ source.row.isSome := by
    intro source hsource
    obtain ⟨origin, horigin, rfl⟩ := List.mem_map.mp hsource
    obtain ⟨hmem, hsome⟩ := List.mem_filter.mp horigin
    have hrow := (source_row (mem_sources.mp hmem).2).1
    dsimp only
    constructor
    · rw [hrow, Option.map_map]
      rfl
    · rw [Option.isSome_map]
      exact hsome
  have hrowOf := replayView_rowOf h hl
  have hrun : ∀ known id, ∃ s, rowRun applyImmutableBatches c.fact.batch.seq (fun _ => none) known id
      (c.fact.batch.writes.zipIdx.filter fun w => w.1.isEdit && eligible.contains w.1.id)
      (foundRow (liveSources ((db.sources (currentStateIds c.fact.batch)).filter (·.row.isSome)) live)
        (replayView db live) id, false) = .ok s ∧
      (id ∈ eligible → ∃ r, s = (some r, true) ∧ V (t + 1) id = some r ∧ r.seq = t + 1 ∧
        isPendingLiveRow r = true) ∧
      (id ∉ eligible → s.2 = false) := by
    intro known id
    by_cases hid : id ∈ eligible
    · obtain ⟨hmem, hreplayed⟩ := (heligible id).mp hid
      obtain ⟨source, hsource, hsid⟩ := List.mem_map.mp hmem
      obtain ⟨hlisted, hdb⟩ := mem_sources.mp hsource
      rw [hsid] at hlisted hdb
      obtain ⟨r, hr, hpend, hrs, hrunr⟩ := replayed_run h hc hreplayed hlisted
      have hfound : foundRow (liveSources
          ((db.sources (currentStateIds c.fact.batch)).filter (·.row.isSome)) live)
          (replayView db live) id = V t id := by
        rw [← replayView_replayed h hl hreplayed]
        refine if_pos ?_
        unfold liveSources
        rw [List.map_map]
        refine List.mem_map.mpr ⟨source, List.mem_filter.mpr ⟨hsource, ?_⟩, hsid⟩
        obtain ⟨row, reference, hget, _⟩ := hreplayed
        rw [(source_row hdb).1, hget]
        rfl
      have hlast : ∀ q, (some r, true).1 = some q → q.kind = .document := fun q hq => by
        cases hq
        exact isPendingLiveRow.kind hpend
      have hedits : rowRun applyImmutableBatches c.fact.batch.seq (fun _ => none) known id
          (c.fact.batch.writes.zipIdx.filter fun w => w.1.isEdit && eligible.contains w.1.id)
          (V t id, false) = .ok (some r, true) :=
        rowRun_edits (by simpa using hid) known hlast hrunr
      rw [hfound]
      exact ⟨_, hedits, fun _ => ⟨r, rfl, hr, hrs, hpend⟩, fun hnot => absurd hid hnot⟩
    · refine ⟨_, rowRun_of_absent (fun w hw hwid => ?_) _, fun hin => absurd hin hid, fun _ => rfl⟩
      have hcond := (List.mem_filter.mp hw).2
      rw [Bool.and_eq_true, hwid] at hcond
      exact hid (by simpa using hcond.2)
  have hok : ∃ states, prepareCurrentStates applyImmutableBatches c.fact.batch (fun _ => none)
      (liveSources ((db.sources (currentStateIds c.fact.batch)).filter (·.row.isSome)) live)
      (fun write _ => write.isEdit && eligible.contains write.id) = .ok states := by
    refine prepareCurrentStates_ok hrowOf (fun s hs => (hview s hs).1) ?_ ?_
    · intro s hs hnone
      have hsome := (hview s hs).2
      rw [hnone] at hsome
      cases hsome
    · intro id
      obtain ⟨s, hs, _⟩ := hrun _ id
      exact ⟨s, hs⟩
  obtain ⟨states, hstates⟩ := hok
  obtain ⟨hnodup, hrows⟩ := prepareCurrentStates_row hrowOf (fun s hs => (hview s hs).1) hstates
  refine ⟨states, hstates, hnodup, fun r hr => ?_, fun id hid => ?_⟩
  · obtain ⟨s, hs, hmem⟩ := hrows r.id
    obtain ⟨s', hs', hin, hout⟩ := hrun _ r.id
    rw [hs] at hs'
    cases hs'
    obtain ⟨hchanged, hvalue⟩ := (hmem r).mp ⟨hr, rfl⟩
    by_cases hid : r.id ∈ eligible
    · obtain ⟨q, rfl, hq, hqs, hpend⟩ := hin hid
      cases hvalue
      exact ⟨hid, hq, hqs, hpend⟩
    · rw [hout hid] at hchanged
      cases hchanged
  · obtain ⟨s, hs, hmem⟩ := hrows id
    obtain ⟨s', hs', hin, _⟩ := hrun _ id
    rw [hs] at hs'
    cases hs'
    obtain ⟨q, rfl, _⟩ := hin hid
    obtain ⟨hq, hqid⟩ := (hmem q).mpr ⟨rfl, rfl⟩
    exact List.mem_map.mpr ⟨q, hq, hqid⟩

variable [DecidableEq D]

theorem replayRows_ok {hashes : List (Nat × D)} {rows : List CurrentStateRow}
    (h : ∀ r ∈ rows, hashes.lookup r.id = some (digests.row r)) (live : NativeLiveState) :
    rows.foldlM (replayRow digests hashes) live = .ok (rows.foldl NativeLiveState.take live) := by
  induction rows generalizing live with
  | nil => rfl
  | cons r rows ih =>
    rw [List.foldlM_cons, List.foldl_cons]
    unfold replayRow
    rw [if_pos (h r List.mem_cons_self), ok_bind]
    exact ih (fun q hq => h q (List.mem_cons_of_mem _ hq)) _

theorem replay_next (h : Inv applyImmutableBatches digests db V) (hl : LiveAt db V t live)
    {c : CommitRow Op D} (hc : db.commits[t]? = some c) :
    ∃ live', replayLiveIn applyImmutableBatches digests db c.fact.batch c.currentHashes live
        c.fact.position = .ok live' ∧ LiveAt db V (t + 1) live' := by
  have hseq := (h.chain.step t c hc).1
  have hsources : ∀ source ∈ db.sources (currentStateIds c.fact.batch),
      source.indexedId ∈ currentStateIds c.fact.batch ∧
        db.source source.indexedId = some source := fun source => mem_sources.mp
  obtain ⟨eligible, hfold, hmem⟩ := eligible_sources h hl hc hsources []
  have heligible : ∀ id, id ∈ eligible ↔
      id ∈ (db.sources (currentStateIds c.fact.batch)).map (·.indexedId) ∧ Replayed db t id :=
    fun id => (hmem id).trans (by simp)
  obtain ⟨states, hstates, hnodup, hrows, hcovered⟩ := replay_prepared h hl hc heligible
  have hreplay : states.rows.foldlM (replayRow digests c.currentHashes) live
      = .ok (states.rows.foldl NativeLiveState.take live) := by
    refine replayRows_ok (fun r hr => ?_) live
    obtain ⟨_, hv, hs, _⟩ := hrows r hr
    exact (h.commit t c hc).2 r.id r hv hs
  refine ⟨{ states.rows.foldl NativeLiveState.take live with through := some c.fact.batch.seq },
    ?_, ?_⟩
  · unfold replayLiveIn initializeLive
    rw [hl.through, ok_bind]
    dsimp only
    rw [hl.through, Option.getD_some, if_neg (by omega), if_neg (by omega), hfold, ok_bind]
    dsimp only
    rw [hstates, ok_bind, hreplay, ok_bind]
    rfl
  · obtain ⟨_, htaken, hleft⟩ := take_rows hnodup live
    refine ⟨congrArg some hseq, (List.getElem?_eq_some_iff.mp hc).1, fun id => ?_⟩
    dsimp only
    by_cases hin : id ∈ states.rows.map CurrentStateRow.id
    · obtain ⟨r, hr, rfl⟩ := List.mem_map.mp hin
      obtain ⟨hre, hv, _, hpend⟩ := hrows r hr
      obtain ⟨row, reference, hget, hs⟩ := ((heligible r.id).mp hre).2
      rw [htaken r hr, if_pos hpend, hget]
      unfold memoryRow
      dsimp only
      rw [if_pos hs, hv]
    · rw [hleft id hin, hl.rows]
      unfold memoryRow
      cases hget : db.current.get id with
      | none => rfl
      | some e =>
        obtain ⟨row, replay⟩ := e
        cases replay with
        | none => rfl
        | some reference =>
          dsimp only
          have hp : Pinned db.commits V id row reference := by
            have := h.table id
            rwa [hget] at this
          by_cases hs : reference.seq ≤ t + 1
          · -- the commit does not list this document
            have hreplayed : Replayed db t id := ⟨row, reference, hget, hs⟩
            have hunlisted : id ∉ currentStateIds c.fact.batch := fun hlisted => by
              have hindex := h.index id (by rw [hget]; rfl)
              rw [← source_isSome] at hindex
              obtain ⟨source, hsource⟩ := Option.isSome_iff_exists.mp hindex
              have hsid : source.indexedId = id := source_id hsource
              refine hin (hcovered id ((heligible id).mpr ⟨?_, hreplayed⟩))
              exact List.mem_map.mpr ⟨source, mem_sources.mpr (by rw [hsid]; exact ⟨hlisted, hsource⟩),
                hsid⟩
            rw [if_pos hs, unlisted_row h hc hunlisted]
            split
            · rfl
            · have hpos := hp.pos
              rw [show t = reference.seq - 1 by omega, hp.before]
          · rw [if_neg hs, if_neg (by omega)]

end Replay

/-! ## The handoff -/

section Handoff

variable {Op D : Type} {applyImmutableBatches : Members → List (List Op) → Except String Members}
  {digests : Digests Op D} {db db' : ProjectionTables Op D}
  {V : Nat → Nat → Option CurrentStateRow} {live live' : NativeLiveState}

def Unpinned (db : ProjectionTables Op D) : Prop :=
  ∀ id e, db.current.get id = some e → e.replay = none

theorem unpinned_of_scan (h : (db.current.scan.filter (·.replay.isSome)).isEmpty = true) :
    Unpinned db := by
  intro id e he
  cases hreplay : e.replay with
  | none => rfl
  | some reference =>
    have hmem : e ∈ db.current.scan.filter (·.replay.isSome) :=
      List.mem_filter.mpr ⟨Table.mem_scan.mpr ⟨id, he⟩, by rw [hreplay]; rfl⟩
    rw [List.isEmpty_iff.mp h] at hmem
    cases hmem

theorem Unpinned.memory (h : Unpinned db) (t id : Nat) :
    memoryRow V t id (db.current.get id) = none := by
  cases hget : db.current.get id with
  | none => rfl
  | some e =>
    obtain ⟨row, replay⟩ := e
    cases h id _ hget
    rfl

theorem Unpinned.protectedThrough (h : Unpinned db) : protectedThrough db = db.head := by
  have hempty : db.current.scan.filter (·.replay.isSome) = [] := by
    rw [List.filter_eq_nil_iff]
    intro e he
    obtain ⟨id, hget⟩ := Table.mem_scan.mp he
    rw [h id e hget]
    decide
  unfold Durable.protectedThrough
  rw [hempty]
  rfl

variable [DecidableEq D]

theorem handoffRows_ok (h : Inv applyImmutableBatches digests db V) (hl : LiveAt db V db.head live)
    {es : List CurrentEntry}
    (hes : ∀ e ∈ es, e.replay.isSome ∧ db.current.get e.row.id = some e)
    {rows : List CurrentStateRow} (hok : es.mapM (handoffRow digests db live) = .ok rows) :
    rows.map CurrentStateRow.id = es.map (·.row.id) ∧
      ∀ r ∈ rows, V db.head r.id = some r := by
  induction es generalizing rows with
  | nil =>
    cases hok
    exact ⟨rfl, nofun⟩
  | cons e es ih =>
    rw [List.mapM_cons] at hok
    obtain ⟨r, hr, hok⟩ := bind_eq_ok.mp hok
    obtain ⟨rest, hrest, hok⟩ := bind_eq_ok.mp hok
    cases hok
    obtain ⟨hids, hrows⟩ := ih (fun q hq => hes q (List.mem_cons_of_mem _ hq)) hrest
    obtain ⟨hreplay, hget⟩ := hes e List.mem_cons_self
    obtain ⟨row, replay⟩ := e
    obtain ⟨reference, rfl⟩ := Option.isSome_iff_exists.mp hreplay
    have hp : Pinned db.commits V row.id row reference := by
      have := h.table row.id
      rwa [hget] at this
    have hlive : live.rows row.id = some r := by
      unfold handoffRow at hr
      dsimp only at hr
      split at hr
      · rename_i hlatest _
        split at hr
        · cases hr
          exact hlatest
        · cases hr
      · cases hr
    rw [hl.rows, hget] at hlive
    have hv : V db.head row.id = some r := by
      unfold memoryRow at hlive
      dsimp only at hlive
      rwa [if_pos (show reference.seq ≤ db.head from hp.bound)] at hlive
    have hrid : r.id = row.id := (h.row (Nat.le_refl _) row.id r hv).1.id
    refine ⟨by rw [List.map_cons, List.map_cons, hids, hrid], fun q hq => ?_⟩
    obtain rfl | hq := List.mem_cons.mp hq
    · rw [hrid]
      exact hv
    · exact hrows q hq

theorem handoff_keeps (h : Inv applyImmutableBatches digests db V) (hm : Memory db V live)
    (hok : checkpointLiveIn digests db live = .ok (db', live')) :
    Inv applyImmutableBatches digests db' V ∧ LiveAt db' V db'.head live' ∧
      db'.commits = db.commits ∧ Unpinned db' ∧
      (Unpinned db ∧ db' = db ∨ LiveAt db V db.head live) := by
  unfold checkpointLiveIn at hok
  rw [h.liveCheckpoints, ok_bind] at hok
  split at hok
  · rename_i hempty
    cases hok
    have hun := unpinned_of_scan hempty
    exact ⟨h, ⟨rfl, Nat.le_refl _, fun id => (hun.memory _ id).symm⟩, rfl, hun, .inl ⟨hun, rfl⟩⟩
  · split at hok
    · cases hok
    · rename_i _ hthrough
      rw [not_not] at hthrough
      obtain ⟨rows, hrows, hok⟩ := bind_eq_ok.mp hok
      obtain ⟨db₁, hcheck, hok⟩ := bind_eq_ok.mp hok
      cases hok
      have hl : LiveAt db V db.head live := by
        obtain ⟨t, hl⟩ | rfl := hm
        · rw [hl.through] at hthrough
          cases hthrough
          exact hl
        · cases hthrough
      obtain ⟨hids, hlatest⟩ := handoffRows_ok h hl (fun e => h.pinnedEntries.mp) hrows
      have hnodup : (rows.map CurrentStateRow.id).Nodup := by
        rw [hids]
        exact (Table.nodup_scan fun id e => h.entry).sublist (List.filter_sublist.map _)
      obtain ⟨hc, hi, hstored, hother⟩ := checkpointRows_ok hnodup hcheck
      have hhead : db'.head = db.head := congrArg List.length hc
      have hget : ∀ r ∈ rows, db'.current.get r.id = some { row := r } := by
        intro r hr
        have hs := (hstored r hr).2
        unfold StoredAs at hs
        cases hfound : db.current.get r.id with
        | none =>
          rw [hfound] at hs
          exact hs
        | some e =>
          rw [hfound] at hs
          dsimp only at hs
          obtain ⟨i, hile, hrow⟩ := h.entryAt hfound
          rw [hs.2, (h.chain.keeps hile (Nat.le_refl _) hrow (hlatest r hr)).2.1]
      have hleft : ∀ id, id ∉ rows.map CurrentStateRow.id → ∀ e, db.current.get id = some e →
          e.replay = none := by
        intro id hid e he
        cases hreplay : e.replay with
        | none => rfl
        | some reference =>
          refine absurd ?_ hid
          rw [hids, ← h.entry he]
          exact List.mem_map_of_mem (h.pinnedEntries.mpr
            ⟨by rw [hreplay]; rfl, by rw [h.entry he]; exact he⟩)
      have hun : Unpinned db' := by
        intro id e he
        by_cases hin : id ∈ rows.map CurrentStateRow.id
        · obtain ⟨r, hr, rfl⟩ := List.mem_map.mp hin
          rw [hget r hr] at he
          cases he
          rfl
        · rw [hother id hin] at he
          exact hleft id hin e he
      refine ⟨⟨?_, ?_, fun id => ?_, fun id hid => ?_, ?_⟩,
        ⟨?_, Nat.le_refl _, fun id => (hun.memory _ id).symm⟩, hc, hun, .inr hl⟩
      · rw [hc]
        exact h.chain
      · rw [hc]
        exact h.commit
      · rw [hc]
        by_cases hin : id ∈ rows.map CurrentStateRow.id
        · obtain ⟨r, hr, rfl⟩ := List.mem_map.mp hin
          rw [hget r hr]
          exact hlatest r hr
        · rw [hother id hin]
          exact h.table id
      · by_cases hin : id ∈ rows.map CurrentStateRow.id
        · obtain ⟨r, hr, rfl⟩ := List.mem_map.mp hin
          exact (hstored r hr).1
        · rw [hother id hin] at hid
          exact hi id (h.index id hid)
      · rw [hc]
        exact h.created
      · rw [hhead]
        exact hl.through

end Handoff

section Memory

variable {Op D : Type} {applyImmutableBatches : Members → List (List Op) → Except String Members}
  {digests : Digests Op D}

theorem protectedThrough_le (db : ProjectionTables Op D) : protectedThrough db ≤ db.head :=
  (foldl_min_le _ _).1

theorem LiveAt.unique {db : ProjectionTables Op D} {V : Nat → Nat → Option CurrentStateRow}
    {t : Nat} {live live' : NativeLiveState} (h : LiveAt db V t live) (h' : LiveAt db V t live') :
    live = live' := by
  obtain ⟨through, rows⟩ := live
  obtain ⟨through', rows'⟩ := live'
  have hthrough : through = through' := h.through.trans h'.through.symm
  have hrows : rows = rows' := funext fun id => (h.rows id).trans (h'.rows id).symm
  rw [hthrough, hrows]

theorem initializeLive_through {db : ProjectionTables Op D} {live : NativeLiveState} {t : Nat}
    (h : live.through = some t) : initializeLive db live = .ok live := by
  unfold initializeLive
  rw [h]

theorem projectIn_congr {db : ProjectionTables Op D} {live live' : NativeLiveState}
    (h : initializeLive db live = initializeLive db live') (fact : DeliveredCommit Op) :
    projectIn applyImmutableBatches digests db fact live
      = projectIn applyImmutableBatches digests db fact live' := by
  unfold projectIn
  rw [h]

end Memory

/-! ## The consumer of the log -/

inductive ConsumerAction (Op : Type) where
  /-- the next commit of the log, in its own transaction -/
  | project (fact : DeliveredCommit Op)
  /-- an accepted commit again, to be projected (`apply`) or only read (`replayLiveIn`) -/
  | redeliver (readOnly : Bool)
  | handoff
  /-- the memory is lost; the log is read again from inside the protected suffix -/
  | reset (start : Nat)

/-- `delivered` counts the commits that were delivered since the start of the log. `kept` are the
actions that an uninterrupted projector would have seen. -/
structure Consumer (Op D : Type) where
  db : ProjectionTables Op D := {}
  live : NativeLiveState := {}
  delivered : Nat := 0
  kept : List (ConsumerAction Op) := []

section Consumer

variable {Op D : Type} [DecidableEq D]
  (applyImmutableBatches : Members → List (List Op) → Except String Members)
  (digests : Digests Op D)

/-- The public `replayLiveIn`. -/
def replayCommit (db : ProjectionTables Op D) (fact : DeliveredCommit Op) (live : NativeLiveState) :
    Except String NativeLiveState :=
  match db.commit fact.batch.seq with
  | none => .ok live
  | some header =>
    if header.fingerprint ≠ digests.commit fact.batch fact.origins then
      .error "Native replay position changed bytes"
    else replayLiveIn applyImmutableBatches digests db fact.batch header.currentHashes live
      fact.position

namespace Consumer

def step (s : Consumer Op D) (a : ConsumerAction Op) : Except String (Consumer Op D) :=
  match a with
  | .project fact =>
    if s.delivered = s.db.head then do
      let (db, live, new) ← applyIn applyImmutableBatches digests s.db fact s.live
      if new then return { db, live, delivered := db.head, kept := s.kept ++ [.project fact] }
      else return { s with live }
    else .ok s
  | .redeliver readOnly =>
    match s.db.commits[s.delivered]? with
    | none => .ok s
    | some c =>
      if readOnly then do
        let live ← replayCommit applyImmutableBatches digests s.db c.fact s.live
        return { s with live, delivered := s.delivered + 1 }
      else do
        let (db, live, _) ← applyIn applyImmutableBatches digests s.db c.fact s.live
        return { s with db, live, delivered := s.delivered + 1 }
  | .handoff => do
    let (db, live) ← checkpointLiveIn digests s.db s.live
    return { s with db, live, kept := s.kept ++ [.handoff] }
  | .reset start =>
    if start ≤ protectedThrough s.db then .ok { s with live := {}, delivered := start } else .ok s

/-- A transaction that fails is rolled back, and its copy of the memory is dropped. -/
def next (s : Consumer Op D) (a : ConsumerAction Op) : Consumer Op D :=
  match s.step applyImmutableBatches digests a with
  | .ok t => t
  | .error _ => s

def run (actions : List (ConsumerAction Op)) : Consumer Op D :=
  actions.foldl (next applyImmutableBatches digests) {}

end Consumer

end Consumer

section Beside

variable {Op D : Type}
  (applyImmutableBatches : Members → List (List Op) → Except String Members)
  (digests : Digests Op D)

/-- A consumer beside one that has never lost its memory. -/
structure Beside (s u : Consumer Op D) (V : Nat → Nat → Option CurrentStateRow) : Prop where
  inv : Inv applyImmutableBatches digests s.db V
  db : s.db = u.db
  bound : s.delivered ≤ s.db.head
  memory : (∃ t, LiveAt s.db V t s.live ∧ s.delivered ≤ t) ∨
    s.live = {} ∧ s.delivered ≤ protectedThrough s.db
  uninterrupted : LiveAt s.db V s.db.head u.live ∨ u.live = {} ∧ Unpinned s.db
  delivered : u.delivered = u.db.head

variable {applyImmutableBatches} {digests}

theorem Beside.initialize {s u : Consumer Op D} {V : Nat → Nat → Option CurrentStateRow}
    (h : Beside applyImmutableBatches digests s u V) :
    ∃ live t, initializeLive s.db s.live = .ok live ∧ LiveAt s.db V t live ∧ s.delivered ≤ t := by
  obtain ⟨t, hl, hle⟩ | ⟨hlive, hle⟩ := h.memory
  · exact ⟨s.live, t, initializeLive_through hl.through, hl, hle⟩
  · obtain ⟨live, hinit, hl⟩ := h.inv.initialize
    rw [hlive]
    exact ⟨live, _, hinit, hl, hle⟩

theorem Beside.other {s u : Consumer Op D} {V : Nat → Nat → Option CurrentStateRow}
    (h : Beside applyImmutableBatches digests s u V) :
    ∃ live, initializeLive s.db u.live = .ok live ∧ LiveAt s.db V s.db.head live := by
  obtain hl | ⟨hlive, hun⟩ := h.uninterrupted
  · exact ⟨u.live, initializeLive_through hl.through, hl⟩
  · obtain ⟨live, hinit, hl⟩ := h.inv.initialize
    rw [hun.protectedThrough] at hl
    rw [hlive]
    exact ⟨live, hinit, hl⟩

theorem Beside.same {s u : Consumer Op D} {V : Nat → Nat → Option CurrentStateRow}
    (h : Beside applyImmutableBatches digests s u V) (hhead : s.delivered = s.db.head) :
    ∃ live, initializeLive s.db s.live = .ok live ∧ initializeLive s.db u.live = .ok live ∧
      LiveAt s.db V s.db.head live := by
  obtain ⟨live, t, hinit, hl, hle⟩ := h.initialize
  have ht : t = s.db.head := by
    have := hl.bound
    omega
  subst ht
  obtain ⟨live', hinit', hl'⟩ := h.other
  rw [hl.unique hl'] at hinit
  exact ⟨live', hinit, hinit', hl'⟩

theorem Beside.prior {s u : Consumer Op D} {V : Nat → Nat → Option CurrentStateRow}
    (h : Beside applyImmutableBatches digests s u V) {c : CommitRow Op D}
    (hc : s.db.commits[s.delivered]? = some c) :
    s.db.commit c.fact.batch.seq = some c ∧
      c.fingerprint = digests.commit c.fact.batch c.fact.origins := by
  rw [(h.inv.chain.step _ c hc).1]
  exact ⟨hc, (h.inv.commit _ c hc).1⟩

variable [DecidableEq D]

theorem replayLiveIn_congr {db : ProjectionTables Op D} {live live' : NativeLiveState}
    (h : initializeLive db live = initializeLive db live') (batch : DurableBatch Op)
    (hashes : List (Nat × D)) (position : ReplayPosition) :
    replayLiveIn applyImmutableBatches digests db batch hashes live position
      = replayLiveIn applyImmutableBatches digests db batch hashes live' position := by
  unfold replayLiveIn
  rw [h]

theorem checkpoint_unpinned {db : ProjectionTables Op D}
    {V : Nat → Nat → Option CurrentStateRow} (h : Inv applyImmutableBatches digests db V)
    (hun : Unpinned db) (live : NativeLiveState) :
    checkpointLiveIn digests db live = .ok (db, { through := some db.head }) := by
  have hempty : (db.current.scan.filter (·.replay.isSome)).isEmpty = true := by
    rw [List.isEmpty_iff, List.filter_eq_nil_iff]
    intro e he
    obtain ⟨id, hget⟩ := Table.mem_scan.mp he
    rw [hun id e hget]
    decide
  unfold checkpointLiveIn
  rw [h.liveCheckpoints, ok_bind, if_pos hempty]
  rfl

theorem Beside.replayed {s u : Consumer Op D} {V : Nat → Nat → Option CurrentStateRow}
    (h : Beside applyImmutableBatches digests s u V) {c : CommitRow Op D}
    (hc : s.db.commits[s.delivered]? = some c) :
    ∃ live t, replayLiveIn applyImmutableBatches digests s.db c.fact.batch c.currentHashes s.live
        c.fact.position = .ok live ∧ LiveAt s.db V t live ∧ s.delivered + 1 ≤ t := by
  obtain ⟨live, t, hinit, hl, hle⟩ := h.initialize
  have hsame : initializeLive s.db s.live = initializeLive s.db live := by
    rw [hinit, initializeLive_through hl.through]
  rw [replayLiveIn_congr hsame]
  have hseq := (h.inv.chain.step _ c hc).1
  by_cases hlt : s.delivered < t
  · exact ⟨live, t, replay_seen hl (by omega) _ _, hl, hlt⟩
  · have ht : t = s.delivered := by omega
    subst ht
    obtain ⟨live', hreplay, hl'⟩ := replay_next h.inv hl hc
    exact ⟨live', _, hreplay, hl', Nat.le_refl _⟩

theorem Beside.redeliver {s u : Consumer Op D} {V : Nat → Nat → Option CurrentStateRow}
    (h : Beside applyImmutableBatches digests s u V) (hlt : s.delivered < s.db.head)
    (readOnly : Bool) :
    ∃ live, s.step applyImmutableBatches digests (.redeliver readOnly)
        = .ok { s with live, delivered := s.delivered + 1 } ∧
      Beside applyImmutableBatches digests { s with live, delivered := s.delivered + 1 } u V := by
  have hc : s.db.commits[s.delivered]? = some (s.db.commits.get ⟨s.delivered, hlt⟩) :=
    List.getElem?_eq_getElem hlt
  generalize s.db.commits.get ⟨s.delivered, hlt⟩ = c at hc
  obtain ⟨live, t, hreplay, hl, hle⟩ := h.replayed hc
  obtain ⟨hprior, hfingerprint⟩ := h.prior hc
  refine ⟨live, ?_, ⟨h.inv, h.db, hlt, .inl ⟨t, hl, hle⟩, h.uninterrupted, h.delivered⟩⟩
  unfold Consumer.step
  dsimp only
  rw [hc]
  cases readOnly with
  | true =>
    dsimp only
    rw [if_pos rfl]
    unfold replayCommit
    rw [hprior]
    dsimp only
    rw [if_neg (not_not_intro hfingerprint), hreplay]
    rfl
  | false =>
    dsimp only
    rw [if_neg (by decide)]
    unfold applyIn
    rw [hprior]
    dsimp only
    rw [if_neg (not_not_intro hfingerprint), hreplay]
    rfl

theorem Beside.project {s u t : Consumer Op D} {V : Nat → Nat → Option CurrentStateRow}
    (h : Beside applyImmutableBatches digests s u V) {fact : DeliveredCommit Op}
    (hok : s.step applyImmutableBatches digests (.project fact) = .ok t) :
    (∃ V', Beside applyImmutableBatches digests t (u.next applyImmutableBatches digests (.project fact)) V' ∧
      t.kept = s.kept ++ [ConsumerAction.project fact]) ∨
    (Beside applyImmutableBatches digests t u V ∧ t.kept = s.kept) := by
  unfold Consumer.step at hok
  dsimp only at hok
  split at hok
  · rename_i hhead
    obtain ⟨⟨db', live', new⟩, happly, hok⟩ := bind_eq_ok.mp hok
    obtain ⟨live, hinit, hinit', hl⟩ := h.same hhead
    have hthrough : initializeLive s.db live = .ok live := initializeLive_through hl.through
    obtain ⟨k, prior, hseq, hget, rfl, rfl, hreplay⟩ | ⟨hnone, rfl, hproject⟩ :=
      applyIn_ok happly
    · refine .inr ?_
      cases hok
      have hlt : k < s.db.commits.length := (List.getElem?_eq_some_iff.mp hget).1
      rw [replayLiveIn_congr (hinit.trans hthrough.symm),
        replay_seen hl (by rw [hseq]; exact hlt)] at hreplay
      cases hreplay
      exact ⟨⟨h.inv, h.db, h.bound, .inl ⟨_, hl, h.bound⟩, h.uninterrupted, h.delivered⟩, rfl⟩
    · refine .inl ?_
      cases hok
      have hm : Memory s.db V live := .inl ⟨_, hl⟩
      rw [projectIn_congr (hinit.trans hthrough.symm)] at hproject
      obtain ⟨V', _, hinv', hl', rows, hcommits⟩ := projectIn_keeps hm h.inv hproject
      have hu : u.next applyImmutableBatches digests (.project fact)
          = { db := db', live := live', delivered := db'.head, kept := u.kept ++ [ConsumerAction.project fact] } := by
        have happlyu : applyIn applyImmutableBatches digests u.db fact u.live
            = .ok (db', live', true) := by
          unfold applyIn
          rw [← h.db, hnone]
          dsimp only
          rw [projectIn_congr (hinit'.trans hthrough.symm), hproject]
          rfl
        unfold Consumer.next Consumer.step
        dsimp only
        rw [if_pos h.delivered, happlyu]
        rfl
      rw [hu]
      exact ⟨V', ⟨hinv', rfl, Nat.le_refl _, .inl ⟨_, hl', Nat.le_refl _⟩, .inl hl', rfl⟩, rfl⟩
  · cases hok
    exact .inr ⟨h, rfl⟩

theorem Beside.handoff {s u t : Consumer Op D} {V : Nat → Nat → Option CurrentStateRow}
    (h : Beside applyImmutableBatches digests s u V)
    (hok : s.step applyImmutableBatches digests .handoff = .ok t) :
    Beside applyImmutableBatches digests t (u.next applyImmutableBatches digests .handoff) V ∧
      t.kept = s.kept ++ [ConsumerAction.handoff] := by
  unfold Consumer.step at hok
  dsimp only at hok
  obtain ⟨⟨db', live'⟩, hcheckpoint, hok⟩ := bind_eq_ok.mp hok
  cases hok
  have hm : Memory s.db V s.live := by
    obtain ⟨t, hl, _⟩ | ⟨hlive, _⟩ := h.memory
    · exact .inl ⟨t, hl⟩
    · exact .inr hlive
  obtain ⟨hinv', hl', hcommits, hun', hcases⟩ := handoff_keeps h.inv hm hcheckpoint
  have hhead : db'.head = s.db.head := congrArg List.length hcommits
  -- the uninterrupted consumer takes the same transaction
  have hcheckpointu : checkpointLiveIn digests s.db u.live = .ok (db', live') := by
    obtain ⟨hun, rfl⟩ | hl := hcases
    · rw [checkpoint_unpinned h.inv hun] at hcheckpoint ⊢
      exact hcheckpoint
    · obtain hlu | ⟨_, hun⟩ := h.uninterrupted
      · rwa [hl.unique hlu] at hcheckpoint
      · rw [checkpoint_unpinned h.inv hun] at hcheckpoint ⊢
        exact hcheckpoint
  have hu : u.next applyImmutableBatches digests .handoff
      = { u with db := db', live := live', kept := u.kept ++ [ConsumerAction.handoff] } := by
    unfold Consumer.next Consumer.step
    dsimp only
    rw [← h.db, hcheckpointu]
    rfl
  rw [hu]
  refine ⟨⟨hinv', rfl, ?_, .inl ⟨_, hl', ?_⟩, .inl hl', ?_⟩, rfl⟩
  · exact (show s.delivered ≤ db'.head from hhead ▸ h.bound)
  · exact (show s.delivered ≤ db'.head from hhead ▸ h.bound)
  · show u.delivered = db'.head
    rw [hhead, h.delivered, h.db]

theorem Beside.next {s u : Consumer Op D} {V : Nat → Nat → Option CurrentStateRow}
    (h : Beside applyImmutableBatches digests s u V) (a : ConsumerAction Op) :
    ∃ V' actions, Beside applyImmutableBatches digests (s.next applyImmutableBatches digests a)
        (actions.foldl (Consumer.next applyImmutableBatches digests) u) V' ∧
      (s.next applyImmutableBatches digests a).kept = s.kept ++ actions := by
  cases hok : s.step applyImmutableBatches digests a with
  | error message =>
    refine ⟨V, [], ?_, ?_⟩
    · unfold Consumer.next
      rw [hok]
      exact h
    · unfold Consumer.next
      rw [hok, List.append_nil]
  | ok t =>
    have hnext : s.next applyImmutableBatches digests a = t := by
      unfold Consumer.next
      rw [hok]
    rw [hnext]
    cases a with
    | project fact =>
      obtain ⟨V', hbeside, hkept⟩ | ⟨hbeside, hkept⟩ := h.project hok
      · exact ⟨V', [.project fact], hbeside, hkept⟩
      · exact ⟨V, [], hbeside, by rw [hkept, List.append_nil]⟩
    | redeliver readOnly =>
      by_cases hlt : s.delivered < s.db.head
      · obtain ⟨live, hstep, hbeside⟩ := h.redeliver hlt readOnly
        rw [hok] at hstep
        cases hstep
        exact ⟨V, [], hbeside, (List.append_nil _).symm⟩
      · have hnone : s.db.commits[s.delivered]? = none :=
          List.getElem?_eq_none (Nat.le_of_not_lt hlt)
        unfold Consumer.step at hok
        dsimp only at hok
        rw [hnone] at hok
        cases hok
        exact ⟨V, [], h, (List.append_nil _).symm⟩
    | handoff =>
      obtain ⟨hbeside, hkept⟩ := h.handoff hok
      exact ⟨V, [.handoff], hbeside, hkept⟩
    | reset start =>
      unfold Consumer.step at hok
      dsimp only at hok
      split at hok
      · rename_i hle
        cases hok
        exact ⟨V, [], ⟨h.inv, h.db, Nat.le_trans hle (protectedThrough_le _), .inr ⟨rfl, hle⟩,
          h.uninterrupted, h.delivered⟩, (List.append_nil _).symm⟩
      · cases hok
        exact ⟨V, [], h, (List.append_nil _).symm⟩

theorem Beside.run (actions : List (ConsumerAction Op)) :
    let s := Consumer.run applyImmutableBatches digests actions
    ∃ V, Beside applyImmutableBatches digests s
      (s.kept.foldl (Consumer.next applyImmutableBatches digests) {}) V := by
  have hstart : ∃ V, Beside applyImmutableBatches digests ({} : Consumer Op D)
      (([] : List (ConsumerAction Op)).foldl (Consumer.next applyImmutableBatches digests) {}) V :=
    ⟨fun _ _ => none, Inv.empty, rfl, Nat.le_refl _, .inr ⟨rfl, Nat.zero_le _⟩,
      .inr ⟨rfl, fun id e he => by cases he⟩, rfl⟩
  have hrun : ∀ s : Consumer Op D, (∃ V, Beside applyImmutableBatches digests s
      (s.kept.foldl (Consumer.next applyImmutableBatches digests) {}) V) →
      ∃ V, Beside applyImmutableBatches digests
        (actions.foldl (Consumer.next applyImmutableBatches digests) s)
        ((actions.foldl (Consumer.next applyImmutableBatches digests) s).kept.foldl
          (Consumer.next applyImmutableBatches digests) {}) V := by
    induction actions with
    | nil => exact fun s hs => hs
    | cons a actions ih =>
      intro s hs
      rw [List.foldl_cons]
      refine ih _ ?_
      obtain ⟨V, hbeside⟩ := hs
      obtain ⟨V', kept, hnext, hkept⟩ := hbeside.next a
      refine ⟨V', ?_⟩
      rw [hkept, List.foldl_append]
      exact hnext
  exact hrun {} hstart

end Beside

/-- Whatever is lost and when: what was accepted is replayed without error, and once it has been
read to its end, tables and memory are those of a projector that took the same commits and handoffs
and never lost its memory. -/
theorem live_recovery {Op D : Type} [DecidableEq D]
    (applyImmutableBatches : Members → List (List Op) → Except String Members)
    (digests : Digests Op D) (actions : List (ConsumerAction Op)) :
    let s := Consumer.run applyImmutableBatches digests actions
    let u := s.kept.foldl (Consumer.next applyImmutableBatches digests) {}
    (s.delivered < s.db.head → ∀ readOnly, ∃ s',
      s.step applyImmutableBatches digests (.redeliver readOnly) = .ok s' ∧
        s'.delivered = s.delivered + 1) ∧
    s.db = u.db ∧ u.delivered = u.db.head ∧
    (s.delivered = s.db.head → ∃ live, initializeLive s.db s.live = .ok live ∧
      initializeLive u.db u.live = .ok live ∧ live.through = some s.db.head) := by
  intro s u
  obtain ⟨V, h⟩ : ∃ V, Beside applyImmutableBatches digests s u V := Beside.run actions
  refine ⟨fun hlt readOnly => ?_, h.db, h.delivered, fun hhead => ?_⟩
  · obtain ⟨live, hstep, _⟩ := h.redeliver hlt readOnly
    exact ⟨_, hstep, rfl⟩
  · obtain ⟨live, hinit, hinit', hl⟩ := h.same hhead
    exact ⟨live, hinit, h.db ▸ hinit', hl.through⟩

/-- The memory is lost after the second commit; the first one is delivered again, and then the other. -/
theorem live_recovery_reset :
    let actions : List (ConsumerAction (JsString × Json)) :=
      (liveTransactions.flatten.map ConsumerAction.project) ++
        [ConsumerAction.reset 0, .redeliver true, .redeliver false]
    let s := Consumer.run assignMembers sequenceDigests actions
    s.delivered = 2 ∧ s.db.head = 2 ∧ ∃ live, initializeLive s.db s.live = .ok live ∧
      live.through = some 2 := by
  intro actions s
  obtain ⟨_, _, _, hsame⟩ := live_recovery assignMembers sequenceDigests actions
  obtain ⟨live, hinit, _, hthrough⟩ := hsame (by decide)
  exact ⟨by decide, by decide, live, hinit, hthrough⟩

end Durable
end PiCloud
