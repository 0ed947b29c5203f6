import PiCloud.Durable.OverlayRuns

/-!
# Durable.RejectedCommits

A commit that is rejected, and one whose outcome is uncertain.

* `Alike`, `agrees_answer`: storages that differ in what they have cached answer every read alike.
* `commit_changes_nothing`: what a rejected commit leaves, and that nothing is accepted after an uncertain
  one.
-/

namespace PiCloud
namespace Durable
namespace Overlay

open Lib
open Published (DocumentPoint)

section Alike

variable {Op : Type} {o : Options Op}

def snapshot (db : Database Op) : World Op := fun _ => some db

def Store.shown (s : Store Op) : Store Op := { s with nextId := 0, readCache := {}, addresses := {} }

/-- A storage that knows its records, and shows what `s` does. -/
structure Shows (w : World Op) (f : Nat → Option IndexedRecord) (s s' : Store Op) : Prop where
  knows : Knows w f s'
  shown : s'.shown = s.shown

/-- Two storages at work that show what `s` does. -/
def Alike (db : Database Op) (f : Nat → Option IndexedRecord) (s : Store Op) (t t' : Working Op) : Prop :=
  Shows (snapshot db) f s t.store ∧ Shows (snapshot db) f s t'.store

theorem Shows.still {w : World Op} {f : Nat → Option IndexedRecord} {s t u : Store Op} (h : Shows w f s t)
    (hu : Still w f t u) : Shows w f s u :=
  ⟨hu.knows, (congrArg Store.shown hu.held).trans h.shown⟩

theorem Shows.self {w : World Op} {f : Nat → Option IndexedRecord} {s t : Store Op} (h : Shows w f s t) :
    Still w f t t := ⟨h.knows, rfl⟩

variable {db : Database Op} {f : Nat → Option IndexedRecord} {s : Store Op}

theorem agrees_ask : EndsAlike (ask (snapshot db)) (Alike db f s) := fun _ _ h => ⟨rfl, h⟩

theorem agrees_lift {α : Type} (x : Except String α) : EndsAlike (lift x : Work Op α) (Alike db f s) := by
  cases x with
  | ok a => exact .pure a
  | error e => exact .throw e

theorem agrees_store {α : Type} {g : Store Op → Work Op α} (hshown : ∀ s : Store Op, g s = g s.shown)
    (hg : ∀ s', EndsAlike (g s') (Alike db f s)) : EndsAlike (store >>= g) (Alike db f s) := by
  intro t t' h
  have hsame : g t'.store = g t.store := by
    rw [hshown t.store, hshown t'.store, h.1.shown, h.2.shown]
  have hbind : ∀ u : Working Op, (store >>= g).run u = (g u.store).run u := fun u => rfl
  rw [hbind, hbind, hsame]
  exact hg t.store t t' h

theorem agrees_scan (query : Query) (limit : Nat) :
    EndsAlike (scan (snapshot db) query limit) (Alike db f s) := by
  unfold scan
  split
  · exact .throw _
  · refine agrees_store (fun _ => rfl) fun s' => ?_
    dsimp only
    split
    · exact .pure _
    · exact .bind (agrees_ask.map _) fun _ => .pure _

theorem agrees_ancestry (id : Nat) : EndsAlike (ancestry (snapshot db) id) (Alike db f s) := by
  unfold ancestry
  refine agrees_store (fun _ => rfl) fun s' => ?_
  split
  · exact .pure _
  · exact .throw _
  · split
    · exact .throw _
    · refine agrees_ask.bind fun db => ?_
      dsimp only
      split
      · exact .pure _
      · exact .throw _
      · exact .throw _

theorem agrees_cursorId (cursor : Option Nat) :
    EndsAlike (cursorId cursor : Work Op (Option Nat)) (Alike db f s) := by
  unfold cursorId
  split
  · exact .pure _
  · exact .throw _

theorem agrees_entries (query : Published.EntryQuery) (limit : Nat) (cursor : Option Nat) (head : Bool) :
    EndsAlike (entries (snapshot db) query limit cursor head) (Alike db f s) := by
  unfold entries
  refine (agrees_cursorId cursor).bind fun after => (agrees_ancestry _).bind fun path => ?_
  refine agrees_store (fun _ => rfl) fun s' => ?_
  dsimp only
  split
  · exact .pure _
  · exact .bind (agrees_ask.map _) fun _ => .pure _

theorem agrees_scanKind (kind : Published.RecordKind)
    (fields : List (Published.Field × Published.FieldValue)) (point : Option DocumentPoint) (limit : Nat)
    (cursor : Option Nat) :
    EndsAlike (scanKind (snapshot db) kind fields point limit cursor) (Alike db f s) :=
  (agrees_cursorId cursor).bind fun _ => (agrees_scan _ _).bind fun _ => .pure _

theorem agrees_scanPage (limit : Nat) (cursor : Option Nat) (scan : Published.Scan) :
    EndsAlike (scanPage (snapshot db) limit cursor scan) (Alike db f s) := by
  cases scan with
  | entries query => exact .bind (agrees_entries _ _ _ _) fun _ => .pure _
  | conversations | tasks | submissions | documents => exact agrees_scanKind _ _ _ _ _

/-! ## The reads that look at a cache -/

variable {t : Working Op}

theorem get_returns (id : Nat) :
    Ends (get o (snapshot db) id) t (fun _ _ => True) fun _ _ => False := by
  unfold get
  refine ends_store_bind ?_
  cases t.store.records.get id with
  | some r => exact .pure trivial
  | none =>
    dsimp only
    split
    · exact .pure trivial
    · cases t.store.readCache.get id with
      | some found => exact .pure trivial
      | none =>
        refine Ends.bind (Q := fun _ _ => True) (ends_ask (fun _ _ => trivial) (by rintro ⟨⟩)) fun db t _ => ?_
        split
        · exact Ends.bind (Q := fun _ _ => True) (ends_change trivial) fun _ _ _ => .pure trivial
        · exact .pure trivial

theorem scan_returns (query : Query) {limit : Nat} (hlimit : 0 < limit)
    (hsafe : limit ≤ Published.maxSafeInteger) :
    Ends (scan (snapshot db) query limit) t (fun _ _ => True) fun _ _ => False := by
  unfold scan
  have hvalid : (limit < 1 || Published.maxSafeInteger < limit : Bool) = false := by
    rw [Bool.or_eq_false_iff, decide_eq_false_iff_not, decide_eq_false_iff_not]
    exact ⟨Nat.not_lt.mpr hlimit, Nat.not_lt.mpr hsafe⟩
  rw [hvalid]
  refine ends_store_bind ?_
  dsimp only
  split
  · exact .pure trivial
  · rw [map_eq_pure_bind, bind_assoc]
    exact Ends.bind (Q := fun _ _ => True) (ends_ask (fun _ _ => trivial) nofun) fun _ _ _ => .pure trivial

theorem findDocument_returns (a : Address) :
    Ends (findDocument (snapshot db) a .current) t (fun _ _ => True) fun _ _ => False := by
  unfold findDocument
  refine ends_store_bind ?_
  dsimp only
  cases t.store.addresses.get a with
  | some found => exact .pure trivial
  | none =>
    cases t.store.currentAt a with
    | some d => exact .pure trivial
    | none =>
      refine (scan_returns _ Nat.one_pos (by decide)).bind fun rows t _ => ?_
      exact Ends.bind (Q := fun _ _ => True) (ends_change trivial) fun _ _ _ => .pure trivial

theorem agrees_get (id : Nat) : EndsAlike (get o (snapshot db) id) (Alike db f s) := by
  refine .of_returns fun t t' h => ?_
  obtain ⟨r, u, hrun, hr, hu⟩ := ((get_known id h.1.self).total (get_returns id)).returns
  obtain ⟨r', u', hrun', hr', hu'⟩ := ((get_known id h.2.self).total (get_returns id)).returns
  exact ⟨f id, u, u', hr ▸ hrun, hr' ▸ hrun', h.1.still hu, h.2.still hu'⟩

theorem IsCurrent.eq {a : Address} {found found' : Option Document} (h : IsCurrent f a found)
    (h' : IsCurrent f a found') : found = found' :=
  Option.ext fun d => (h d).trans (h' d).symm

theorem agrees_findDocument (a : Address) (point : DocumentPoint) :
    EndsAlike (findDocument (snapshot db) a point) (Alike db f s) := by
  cases point with
  | «at» seq => exact (agrees_scan _ _).bind fun _ => .pure _
  | current =>
    refine .of_returns fun t t' h => ?_
    obtain ⟨found, u, hrun, hcurrent, hu⟩ := ((findDocument_known a h.1.self).total (findDocument_returns a)).returns
    obtain ⟨found', u', hrun', hcurrent', hu'⟩ := ((findDocument_known a h.2.self).total (findDocument_returns a)).returns
    exact ⟨found, u, u', hrun, hcurrent.eq hcurrent' ▸ hrun', h.1.still hu, h.2.still hu'⟩

theorem agrees_recordSequence (id : Nat) :
    EndsAlike (recordSequence (snapshot db) id) (Alike db f s) := by
  have hknown : ∀ t : Working Op, Shows (snapshot db) f s t.store →
      Ends (recordSequence (snapshot db) id) t
        (fun r t' => r = (f id).bind IndexedRecord.sequence? ∧ t'.store = t.store) fun _ _ => False := by
    intro t h
    unfold recordSequence
    refine ends_store_bind ?_
    cases hlocal : t.store.records.get id with
    | some r => exact .pure ⟨by rw [h.knows.overlay id r hlocal]; rfl, rfl⟩
    | none =>
      dsimp only
      split
      · rename_i hcold
        rw [Bool.or_eq_true, decide_eq_true_eq, decide_eq_true_eq] at hcold
        exact .pure ⟨by rw [h.knows.absent id hlocal hcold]; rfl, rfl⟩
      · cases hcache : t.store.readCache.get id with
        | some found => exact .pure ⟨by rw [h.knows.readCache id found hlocal hcache], rfl⟩
        | none =>
          refine Ends.bind (Q := fun db' t' => db' = db ∧ t'.store = t.store)
            (ends_ask (fun db' hdb => ⟨(Option.some.inj hdb).symm, rfl⟩) (by rintro ⟨⟩)) ?_
          rintro _ t' ⟨rfl, hstore⟩
          exact .pure ⟨by rw [h.knows.rows 0 _ id rfl hlocal], hstore⟩
  refine .of_returns fun t t' h => ?_
  obtain ⟨r, u, hrun, hr, hu⟩ := (hknown t h.1).returns
  obtain ⟨r', u', hrun', hr', hu'⟩ := (hknown t' h.2).returns
  refine ⟨_, u, u', hr ▸ hrun, hr' ▸ hrun', ?_, ?_⟩
  · rw [hu]
    exact h.1
  · rw [hu']
    exact h.2

/-! ## All reads -/

theorem agrees_value (kind : ValueKind) (id : Nat) :
    EndsAlike (value o (snapshot db) kind id) (Alike db f s) :=
  (agrees_get id).bind fun _ => .pure _

theorem agrees_conversation (id : Nat) : EndsAlike (conversation o (snapshot db) id) (Alike db f s) := by
  refine (agrees_value _ id).bind fun found => ?_
  cases found with
  | none => exact .throw _
  | some v => exact .pure _

theorem agrees_entryWithin (conversation : Option Value) (found : Option IndexedRecord) :
    EndsAlike (entryWithin (snapshot db) conversation found) (Alike db f s) := by
  unfold entryWithin
  split
  · split
    · exact .pure _
    · cases conversation with
      | none => exact .pure _
      | some conversation =>
        dsimp only
        split
        · exact .pure _
        · refine (agrees_ancestry _).bind fun path => ?_
          split <;> exact .pure _
  · exact .pure _

theorem agrees_entry (conversationId : Option Nat) (id : Nat) :
    EndsAlike (entry o (snapshot db) conversationId id) (Alike db f s) := by
  unfold entry
  cases conversationId with
  | none => exact (agrees_get id).bind fun _ => agrees_entryWithin _ _
  | some conversationId =>
    exact .bind (.map _ (agrees_conversation _)) fun _ => (agrees_get id).bind fun _ => agrees_entryWithin _ _

theorem agrees_materialize (id : Nat) (record : Document) (point : DocumentPoint) :
    EndsAlike (materialize o (snapshot db) id record point) (Alike db f s) := by
  have hrest : ∀ cold local_, EndsAlike ((do
      let stored ← lift (materializeNativeDocument o.applyImmutableBatches record.toDocumentRecord
        (mergeRevisions cold local_))
      return { record, version := stored.version, value := stored.value
               deltasSinceBase := stored.deltasSinceBase } : Work Op StoredDocument)) (Alike db f s) :=
    fun cold local_ => (agrees_lift _).bind fun _ => .pure _
  unfold materialize
  refine agrees_store (fun _ => rfl) fun s' => ?_
  dsimp only
  exact .ite (hrest _ _) (agrees_ask.bind fun _ => (agrees_lift _).bind fun _ => hrest _ _)

theorem agrees_readDocument (id : Nat) (point : DocumentPoint) :
    EndsAlike (readDocument o (snapshot db) id point) (Alike db f s) := by
  refine EndsAlike.bind ((agrees_get id).bind fun _ => .pure _) fun found => ?_
  cases found with
  | none => exact .pure _
  | some record =>
    dsimp only
    split
    · exact .throw _
    · split
      · exact .pure _
      · refine agrees_store (fun _ => rfl) fun s' => ?_
        split
        · exact .pure _
        · exact .map _ (agrees_materialize id record point)

theorem agrees_answer (read : Read) : EndsAlike (answer o (snapshot db) read) (Alike db f s) := by
  cases read with
  | value kind id => exact (agrees_value kind id).bind fun _ => .pure _
  | entry conversationId id => exact (agrees_entry conversationId id).bind fun _ => .pure _
  | scan scan limit cursor => exact (agrees_scanPage limit cursor scan).bind fun _ => .pure _
  | submissionByRequest => exact .bind ((agrees_scan _ _).bind fun _ => .pure _) fun _ => .pure _
  | findLatestHeadMarker => exact .bind (.bind (agrees_entries _ _ _ _) fun _ => .pure _) fun _ => .pure _
  | findDocument address point => exact (agrees_findDocument address point).bind fun _ => .pure _
  | document id point => exact (agrees_readDocument id point).bind fun _ => .pure _
  | recordSequence id => exact (agrees_recordSequence id).bind fun _ => .pure _

/-! ## What a rejected commit leaves -/

theorem readNow_alike {t : Store Op} (hs : Knows (snapshot db) f s) (ht : Shows (snapshot db) f s t)
    (r : Read) : (readNow o (snapshot db) r t).1 = (readNow o (snapshot db) r s).1 := by
  have hrefusal : refusal t = refusal s := by
    have hshown : refusal t.shown = refusal s.shown := by rw [ht.shown]
    exact hshown
  unfold readNow
  rw [hrefusal]
  split
  · rfl
  · exact (agrees_answer r { store := t } { store := s } ⟨ht, hs, rfl⟩).1

/-- What a rejected commit leaves: the storage that it found, or that storage drained where the buffer was
full, with ids given out and the caches filled. -/
structure Harmless (o : Options Op) (y : Owner Op) (room s' : Store Op) : Prop where
  drained : room = y.store ∨ isFull o y.store = true ∧ room = y.store.drained
  seq : s'.seq = y.store.seq
  held : ∃ minted, s'.held = { room with nextId := room.nextId + minted }.held
  reads : ∀ db, y.Follows room (snapshot db) → ∀ r,
    (readNow o (snapshot db) r s').1 = (readNow o (snapshot db) r room).1

theorem makeRoom_cases (o : Options Op) (s : Store Op) :
    makeRoom o s = s ∨ isFull o s = true ∧ makeRoom o s = s.drained := by
  unfold makeRoom
  split
  · rename_i hfull
    exact .inr ⟨((Bool.and_eq_true _ _).mp hfull).1, rfl⟩
  · exact .inl rfl

theorem makeRoom_seq (o : Options Op) (s : Store Op) : (makeRoom o s).seq = s.seq := by
  obtain h | ⟨-, h⟩ := makeRoom_cases o s
  · rw [h]
  · rw [h]
    rfl

theorem harmless_of_still {y : Owner Op} {around : Surroundings Op} {t : Store Op} (hsound : Sound y)
    (h : Knowing y) (ht : Still around.world y.content (y.preparing o around) t) (later : Nat) :
    Harmless o y (makeRoom o y.store) { t with nextId := t.nextId + later } := by
  have hroom := h.preparing (o := o) hsound around
  refine ⟨makeRoom_cases o y.store, ?_, ⟨around.mintedBefore + later, ?_⟩, fun db hdb r => ?_⟩
  · have hseq : t.held.seq = (y.preparing o around).held.seq := by rw [ht.held]
    exact hseq.trans (makeRoom_seq o y.store)
  · have heta : ({ t with nextId := t.nextId + later } : Store Op).held =
      { t.held with nextId := t.held.nextId + later } := rfl
    rw [heta, ht.held]
    exact congrArg (fun n => ({ makeRoom o y.store with nextId := n } : Store Op).held) (Nat.add_assoc ..)
  · have hafter := (hroom.still ht).mint later
    have hcold : t.held.coldSeq = (y.preparing o around).held.coldSeq := by rw [ht.held]
    have hfollows : y.Follows t (snapshot db) := fun q db' hq => by
      obtain ⟨k, hk, hle, hrows⟩ := hdb q db' hq
      exact ⟨k, hk, hcold.trans_le hle, hrows⟩
    refine readNow_alike ((h.makeRoom o hsound).follows (hsound.withStore _) hdb)
      ⟨hafter.follows (hsound.withStore _) hfollows, ?_⟩ r
    have hshown : t.held.shown = (y.preparing o around).held.shown := by rw [ht.held]
    exact hshown

theorem harmless_of_rejected {y : Owner Op} (hy : Inv y) (around : Surroundings Op)
    (input : List (StorageWrite Op)) (hworld : y.Follows (y.preparing o around) around.world)
    {message : String} {s' : Store Op} (h : commit o around input y.store = (.rejected message, s')) :
    ∃ room, Harmless o y room s' := by
  have hcases := commit_committed o around input y
  rw [h] at hcases
  have hkept : refusal y.store = none → ∀ {result t},
      (prepare o around.world input).run { store := y.preparing o around } = (result, t) →
      Still around.world y.content (y.preparing o around) t.store := by
    intro hopen result t hrun
    have hroom := (hy.knowing hopen).preparing (o := o) hy.sound around
    have hknows := hroom.follows (hy.sound.withStore _) hworld
    have := keeps_prepare (o := o) closed_still input { store := y.preparing o around } ⟨hknows, rfl⟩
    rwa [hrun] at this
  generalize hr : CommitResult.rejected message = result at hcases
  cases hcases with
  | unchanged => exact ⟨y.store, .inl rfl, rfl, ⟨0, rfl⟩, fun _ _ _ => rfl⟩
  | invalid hopen hrun => exact ⟨_, harmless_of_still hy.sound (hy.knowing hopen) (hkept hopen hrun) _⟩
  | withheld _ hopen hrun => exact ⟨_, harmless_of_still hy.sound (hy.knowing hopen) (hkept hopen hrun) _⟩
  | uncertain => cases hr
  | accepted => cases hr

/-! ## After an uncertain outcome -/

/-- A refused operation is answered with the reason; `close` asks for none. -/
def Outcome.IsRefused (message : String) : Outcome Op → Prop
  | .committed result => result = .rejected message
  | .answered answer => answer = .error message
  | .minted id => id = .error message
  | .flushed done => done = .error message
  | .closed => True

theorem perform_refused {s : Store Op} {message : String} (h : refusal s = some message) (a : Action Op) :
    (perform o s a).1.IsRefused message ∧ ∃ message', refusal (perform o s a).2 = some message' := by
  cases a with
  | commit around input =>
    have hcommit : commit o around input s = (.rejected message, s) := by
      unfold commit
      rw [h]
    dsimp only [perform]
    rw [hcommit]
    exact ⟨rfl, message, h⟩
  | read world r =>
    have hread : readNow o world r s = (.error message, s) := by
      unfold readNow
      rw [h]
    dsimp only [perform]
    rw [hread]
    exact ⟨rfl, message, h⟩
  | mintId =>
    have hmint : mintId s = (.error message, s) := by
      unfold mintId
      rw [h]
    dsimp only [perform]
    rw [hmint]
    exact ⟨rfl, message, h⟩
  | flush projected =>
    have hflush : flush projected s = (.error message, s) := by
      unfold flush
      rw [h]
    dsimp only [perform]
    rw [hflush]
    exact ⟨rfl, message, h⟩
  | close => exact ⟨trivial, _, rfl⟩

def afterAll (o : Options Op) (s : Store Op) (as : List (Action Op)) : Store Op :=
  as.foldl (fun s a => (perform o s a).2) s

theorem refused_afterAll (as : List (Action Op)) {s : Store Op} {message : String}
    (h : refusal s = some message) : ∃ message', refusal (afterAll o s as) = some message' := by
  induction as generalizing s message with
  | nil => exact ⟨message, h⟩
  | cons a as ih =>
    obtain ⟨message', h'⟩ := (perform_refused (o := o) h a).2
    exact ih h'

theorem refusal_of_uncertain {around : Surroundings Op} {input : List (StorageWrite Op)} {y : Owner Op}
    {s' : Store Op} (h : commit o around input y.store = (.uncertain, s')) :
    ∃ message, refusal s' = some message := by
  have hcases := commit_committed o around input y
  rw [h] at hcases
  generalize hr : (CommitResult.uncertain : CommitResult Op) = result at hcases
  cases hcases with
  | unchanged | invalid | withheld | accepted => cases hr
  | uncertain =>
    unfold refusal
    split
    · exact ⟨_, rfl⟩
    · exact ⟨_, rfl⟩

/-- A rejected commit changes nothing but that a full buffer was drained before; after an uncertain one
every operation is refused. -/
theorem commit_changes_nothing {y : Owner Op} {as : List (Action Op)}
    (h : Reach ((owner o).guard (Careful o)) as y) (around : Surroundings Op)
    (input : List (StorageWrite Op)) (hworld : y.Follows (y.preparing o around) around.world) :
    (∀ message s', commit o around input y.store = (.rejected message, s') →
      ∃ room, Harmless o y room s') ∧
    ∀ s', commit o around input y.store = (.uncertain, s') →
      ∀ later a, ∃ refused, refusal (afterAll o s' later) = some refused ∧
        (perform o (afterAll o s' later) a).1.IsRefused refused := by
  refine ⟨fun message s' hrejected => harmless_of_rejected (Inv.reach h) around input hworld hrejected, ?_⟩
  intro s' huncertain later a
  obtain ⟨message, hs'⟩ := refusal_of_uncertain huncertain
  obtain ⟨refused, hlater⟩ := refused_afterAll (o := o) later hs'
  exact ⟨refused, hlater, (perform_refused hlater a).1⟩


end Alike

/-! ## A full buffer -/

def smallOptions : Options Unit := { plainOptions with maximumBufferedWrites := 1 }

def laterWorld : World Unit := fun _ =>
  some { rows := (noteOwner.act smallOptions addNote).rowsAt 1
         revisions := fun _ _ => .ok [], latestRevision := fun _ => .ok none }

def strayRetirement : List (StorageWrite Unit) := [.documentRetire 9]

theorem reach_addNote : Reach ((owner smallOptions).guard (Careful smallOptions)) [addNote]
    (noteOwner.act smallOptions addNote) := by
  have h0 : Reach ((owner smallOptions).guard (Careful smallOptions)) [] noteOwner := .init opened_noteOwner
  exact h0.next ⟨careful_addNote smallOptions, noteWorld_follows _ (Nat.le_refl 1) rfl, rfl⟩

theorem laterWorld_follows (s : Store Unit) (hs : s.coldSeq ≤ 2) :
    (noteOwner.act smallOptions addNote).Follows s laterWorld := by
  rintro q db hdb
  cases hdb
  exact ⟨1, Nat.le_refl 1, hs, rfl⟩

/-- A rejected commit on a full buffer drains it, and changes nothing else. -/
theorem commit_changes_nothing_addNote :
    ∃ message s', commit smallOptions { world := laterWorld } strayRetirement
        (noteOwner.act smallOptions addNote).store = (.rejected message, s') ∧
      ∃ room, Harmless smallOptions (noteOwner.act smallOptions addNote) room s' :=
  ⟨_, _, rfl, (commit_changes_nothing reach_addNote { world := laterWorld } strayRetirement
    (laterWorld_follows _ (by decide))).1 _ _ rfl⟩

/-- A note that was acknowledged is in the overlay; after the rejected commit it is not, and without the
projection it is not found any more. -/
theorem commit_drains_first :
    ∃ message s', commit smallOptions { world := laterWorld } strayRetirement
        (noteOwner.act smallOptions addNote).store = (.rejected message, s') ∧
      (noteOwner.act smallOptions addNote).store.records.size = 1 ∧ s'.records.size = 0 ∧
      (∃ found, (readNow smallOptions (fun _ => none) (.recordSequence 3)
        (noteOwner.act smallOptions addNote).store).1 = .ok found) ∧
      ∃ e, (readNow smallOptions (fun _ => none) (.recordSequence 3) s').1 = .error e :=
  ⟨_, _, rfl, rfl, rfl, ⟨_, rfl⟩, _, rfl⟩

end Overlay
end Durable
end PiCloud
