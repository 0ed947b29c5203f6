import PiCloud.Lib.History
import PiCloud.Attachments.Inventory

/-!
# Attachments.Reachability

A row that is referred to is never collected, and a row is removed when nothing can be under its key.

* `Writer.MayCreate`: a writer that can still create its object.
* `Doomed`, `Quiet`: a row that was claimed, and a row whose writer has finished for good.
* `Inv`: what rows, writers, reapers, retaining transactions and references say of each other.
* `referenced_never_collected`: the invariant holds in every run, and what it says.
-/

namespace PiCloud
namespace Attachments
namespace Inventory

open Lib

namespace AttachmentStore

/-- An upload that can still create an object: on its way to the transfer or in it, or with a request
that may take effect. -/
def Writer.MayCreate (x : Writer) : Prop :=
  x.phase = .inserting ∨ x.phase = .inserted ∨ x.phase = .transferring ∨
    (x.request = .pending ∧ Writer.transmitted x = true)

structure Writer.Wf (x : Writer) : Prop where
  early : x.phase = .inserting ∨ x.phase = .inserted → x.request = .none
  sent : x.claim = none ∨ x.sent ≤ x.length
  completing : ∀ ready, x.phase = .completing ready →
    ¬ Writer.MayCreate x ∧ (ready = true → x.request = .done)

/-- What a step of a writer keeps. -/
structure Writer.Advance (x y : Writer) : Prop where
  tenantId : y.tenantId = x.tenantId
  inserting : x.phase ≠ .inserting → y.phase ≠ .inserting
  finished : x.phase = .finished → y.phase = .finished
  quiet : ¬ Writer.MayCreate x → ¬ Writer.MayCreate y
  done : x.request = .done → y.request = .done
  wf : Writer.Wf x → Writer.Wf y

variable {s t : AttachmentStore}

/-- The row of `k` is there or was there. -/
def Seen (s : AttachmentStore) (k : AttachmentKey) : Prop :=
  k.id < s.nextWriter ∧ (s.writers k.id).phase ≠ .inserting

/-- The writer of `k` has finished for good. -/
def Quiet (s : AttachmentStore) (k : AttachmentKey) : Prop :=
  Seen s k ∧ (s.writers k.id).phase = .finished ∧ ¬ Writer.MayCreate (s.writers k.id)

/-- The row of `k` was claimed by a reaper. -/
def Doomed (s : AttachmentStore) (k : AttachmentKey) : Prop :=
  Seen s k ∧ ∀ row, s.inventory k = some row → row.state = .deleting

structure RowOk (s : AttachmentStore) (k : AttachmentKey) (row : InventoryRow) : Prop where
  seen : Seen s k
  key : s.key k.id = k
  written : row.writeCompleted = true → Quiet s k
  ready : row.state = .ready → (s.writers k.id).request = .done
  present : row.state ≠ .deleting → (s.writers k.id).request = .done → s.blobs k = true

structure ReaperOk (s : AttachmentStore) (x : Reaper) : Prop where
  claimed : ∀ rows, x.claimed = some rows → ∀ e ∈ rows, e.1 ∈ x.locked ∧ Seen s e.1 ∧
    s.referenced e.1 = false ∧ s.uploaded e.1 = false ∧ (e.2 = true → Quiet s e.1)
  queue : ∀ e ∈ x.queue, Doomed s e.1 ∧ (e.2 = true → Quiet s e.1)
  head : ∀ d, x.deletion = some d → (x.queue.head?.map Prod.fst) = some d.key
  erased : ∀ d, x.deletion = some d → d.done = true → ∀ e, x.queue.head? = some e → e.2 = true →
    s.blobs e.1 = false
  abandoned : ∀ d ∈ x.abandoned, Doomed s d.key

def Ready (s : AttachmentStore) (k : AttachmentKey) : Prop :=
  ∃ row, s.inventory k = some row ∧ row.state = .ready

structure Inv (s : AttachmentStore) : Prop where
  rows : ∀ k row, s.inventory k = some row → RowOk s k row
  writers : ∀ w < s.nextWriter, Writer.Wf (s.writers w)
  reapers : ∀ r < s.nextReaper, ReaperOk s (s.reapers r)
  exclusive : ∀ r < s.nextReaper, ∀ k ∈ (s.reapers r).locked, ∀ t < s.nextRetention,
    k ∉ Retention.keys (s.retentions t)
  retained : ∀ t < s.nextRetention, ∀ k ∈ Retention.keys (s.retentions t), Ready s k
  inserted : ∀ t < s.nextRetention, ∀ r ∈ (s.retentions t).inserted,
    r.key ∈ Retention.keys (s.retentions t)
  references : ∀ r ∈ s.references, Ready s r.key
  uploads : ∀ id u a, s.uploads.get id = some u → u.attachmentId = some a →
    ∃ row, s.inventory { tenantId := u.tenantId, id := a } = some row ∧ row.state ≠ .deleting
  removed : ∀ k ∈ s.removed, Quiet s k ∧ s.inventory k = none ∧ s.blobs k = false

theorem RowOk.frame {k : AttachmentKey} {row : InventoryRow} (h : RowOk s k row)
    (hwriters : t.writers = s.writers) (hnext : t.nextWriter = s.nextWriter)
    (hblobs : t.blobs = s.blobs) : RowOk t k row := by
  obtain ⟨hseen, hkey, hwritten, hready, hpresent⟩ := h
  constructor <;>
    simpa only [Seen, Quiet, AttachmentStore.key, hwriters, hnext, hblobs] using by assumption

/-- What a step keeps of the rows, for those who look at them. -/
structure Later (s t : AttachmentStore) : Prop where
  seen : ∀ k, Seen s k → Seen t k
  quiet : ∀ k, Quiet s k → Quiet t k
  doomed : ∀ k, Doomed s k → Doomed t k
  erased : ∀ k, Quiet s k → s.blobs k = false → t.blobs k = false

theorem Later.reaperOk (h : Later s t) {x : Reaper} (hx : ReaperOk s x)
    (hunreachable : ∀ k ∈ x.locked, Seen s k → s.referenced k = false → s.uploaded k = false →
      t.referenced k = false ∧ t.uploaded k = false) : ReaperOk t x := by
  refine ⟨?_, ?_, hx.head, ?_, fun d hd => h.doomed _ (hx.abandoned d hd)⟩
  · intro rows hrows e he
    obtain ⟨hlocked, hseen, href, hup, hquiet⟩ := hx.claimed rows hrows e he
    obtain ⟨href, hup⟩ := hunreachable e.1 hlocked hseen href hup
    exact ⟨hlocked, h.seen _ hseen, href, hup, fun he => h.quiet _ (hquiet he)⟩
  · intro e he
    obtain ⟨hdoomed, hquiet⟩ := hx.queue e he
    exact ⟨h.doomed _ hdoomed, fun he => h.quiet _ (hquiet he)⟩
  · intro d hd hdone e hhead he
    have hmem : e ∈ x.queue := List.mem_of_mem_head? hhead
    exact h.erased _ ((hx.queue e hmem).2 he) (hx.erased d hd hdone e hhead he)

/-! ### Steps of writers -/

theorem setWriter_writers (s : AttachmentStore) (w v : Nat) (f : Writer → Writer) :
    (s.setWriter w f).writers v = if v = w then f (s.writers w) else s.writers v :=
  Function.update_apply ..

theorem Writer.Advance.refl (x : Writer) : Writer.Advance x x := ⟨rfl, id, id, id, id, id⟩

theorem setWriter_advance {w : Nat} {f : Writer → Writer}
    (h : Writer.Advance (s.writers w) (f (s.writers w))) (v : Nat) :
    Writer.Advance (s.writers v) ((s.setWriter w f).writers v) := by
  rw [setWriter_writers]
  split
  · rename_i hvw
    rw [hvw]
    exact h
  · exact .refl _

theorem Later.of_advance (hwriters : ∀ v, Writer.Advance (s.writers v) (t.writers v))
    (hnext : s.nextWriter ≤ t.nextWriter) (hblobs : ∀ k, Quiet s k → s.blobs k = false → t.blobs k = false)
    (hdoomed : ∀ k, Doomed s k → ∀ row, t.inventory k = some row → row.state = .deleting) :
    Later s t := by
  have hseen : ∀ k, Seen s k → Seen t k :=
    fun k h => ⟨Nat.lt_of_lt_of_le h.1 hnext, (hwriters _).inserting h.2⟩
  refine ⟨hseen, fun k h => ?_, fun k h => ⟨hseen k h.1, hdoomed k h⟩, hblobs⟩
  exact ⟨hseen k h.1, (hwriters _).finished h.2.1, (hwriters _).quiet h.2.2⟩

theorem Inv.of_later (hi : s.Inv) (h : Later s t) (hrows : ∀ k row, t.inventory k = some row → RowOk t k row)
    (hwriters : ∀ w < t.nextWriter, Writer.Wf (t.writers w)) (hready : ∀ k, Ready s k → Ready t k)
    (hreapers : t.reapers = s.reapers) (hnextReaper : t.nextReaper = s.nextReaper)
    (hretentions : t.retentions = s.retentions) (hnextRetention : t.nextRetention = s.nextRetention)
    (hreferences : t.references = s.references) (hremoved : t.removed = s.removed)
    (hnone : ∀ k ∈ s.removed, t.inventory k = none)
    (huploads : ∀ id u a, t.uploads.get id = some u → u.attachmentId = some a →
      ∃ row, t.inventory { tenantId := u.tenantId, id := a } = some row ∧ row.state ≠ .deleting)
    (huploaded : ∀ k, Seen s k → s.uploaded k = false → t.uploaded k = false) : t.Inv := by
  refine ⟨hrows, hwriters, ?_, ?_, ?_, ?_, ?_, huploads, ?_⟩
  · intro r hr
    rw [hreapers]
    refine h.reaperOk (hi.reapers r (hnextReaper ▸ hr)) fun k _ hseen href hup => ⟨?_, huploaded k hseen hup⟩
    unfold referenced
    rw [hreferences]
    exact href
  · intro r hr k hk u hu
    rw [hreapers] at hk
    rw [hretentions]
    exact hi.exclusive r (hnextReaper ▸ hr) k hk u (hnextRetention ▸ hu)
  · intro u hu k hk
    rw [hretentions] at hk
    exact hready k (hi.retained u (hnextRetention ▸ hu) k hk)
  · intro u hu r hr
    rw [hretentions] at hr ⊢
    exact hi.inserted u (hnextRetention ▸ hu) r hr
  · intro r hr
    exact hready _ (hi.references r (hreferences ▸ hr))
  · intro k hk
    rw [hremoved] at hk
    obtain ⟨hquiet, _, hblob⟩ := hi.removed k hk
    exact ⟨h.quiet k hquiet, hnone k hk, h.erased k hquiet hblob⟩

theorem Inv.setWriter (hi : s.Inv) {w : Nat} {f : Writer → Writer}
    (h : Writer.Advance (s.writers w) (f (s.writers w))) (hrequest : (f (s.writers w)).request = .done →
      (s.writers w).request = .done) : (s.setWriter w f).Inv := by
  have hadvance := setWriter_advance h
  have hlater : Later s (s.setWriter w f) :=
    .of_advance hadvance (Nat.le_refl _) (fun _ _ => id) fun k h => h.2
  refine hi.of_later hlater ?_ (fun v hv => (hadvance v).wf (hi.writers v hv)) (fun _ => id) rfl rfl rfl
    rfl rfl rfl (fun k hk => (hi.removed k hk).2.1) hi.uploads fun _ _ => id
  intro k row hrow
  have hok := hi.rows k row hrow
  refine ⟨hlater.seen k hok.seen, ?_, fun hw => hlater.quiet k (hok.written hw),
    fun hr => (hadvance _).done (hok.ready hr), fun hstate hdone => hok.present hstate ?_⟩
  · unfold AttachmentStore.key
    rw [(hadvance _).tenantId]
    exact hok.key
  · rw [setWriter_writers] at hdone
    split at hdone
    · rename_i hkw
      rw [hkw]
      exact hrequest hdone
    · exact hdone

theorem not_mayCreate {x : Writer} (hphase : x.phase = .finished ∨ ∃ ready, x.phase = .completing ready)
    (hrequest : x.request = .pending → Writer.transmitted x = false) : ¬ Writer.MayCreate x := by
  rintro (h | h | h | ⟨hpending, ht⟩)
  · obtain hp | ⟨ready, hp⟩ := hphase <;> rw [h] at hp <;> cases hp
  · obtain hp | ⟨ready, hp⟩ := hphase <;> rw [h] at hp <;> cases hp
  · obtain hp | ⟨ready, hp⟩ := hphase <;> rw [h] at hp <;> cases hp
  · rw [hrequest hpending] at ht
    cases ht

theorem Inv.abortBefore (hi : s.Inv) {w : Nat} : (s.abortBefore w).Inv := by
  unfold AttachmentStore.abortBefore
  split
  · rename_i hphase
    refine hi.setWriter ⟨rfl, fun _ => nofun, ?_, fun h => ?_, id, fun hw => ?_⟩ id
    · rw [hphase]
      nofun
    · exact absurd (.inr (.inl hphase)) h
    · have hnone := hw.early (.inr hphase)
      refine ⟨fun h => h.elim nofun nofun, hw.sent, fun ready h => ?_⟩
      cases h
      refine ⟨not_mayCreate (.inr ⟨false, rfl⟩) fun h => ?_, nofun⟩
      rw [hnone] at h
      cases h
  · exact hi

theorem Inv.transfer (hi : s.Inv) {w : Nat} (hlt : w < s.nextWriter) : (s.transfer w).Inv := by
  unfold AttachmentStore.transfer
  split
  · rename_i hphase
    have hnone := (hi.writers w hlt).early (.inr hphase)
    refine hi.setWriter ⟨rfl, fun _ => nofun, ?_, fun h => ?_, ?_, fun hw => ?_⟩ nofun
    · rw [hphase]
      nofun
    · exact absurd (.inr (.inl hphase)) h
    · rw [hnone]
      nofun
    · exact ⟨fun h => h.elim nofun nofun, hw.sent, nofun⟩
  · exact hi

theorem Writer.Advance.transferring {x y : Writer} (hx : x.phase = .transferring)
    (hphase : y.phase = .transferring) (htenant : y.tenantId = x.tenantId)
    (hrequest : y.request = x.request) (hsent : x.claim = none ∨ x.sent ≤ x.length →
      y.claim = none ∨ y.sent ≤ y.length) : Writer.Advance x y := by
  refine ⟨htenant, fun _ => ?_, ?_, fun h => ?_, fun h => hrequest.trans h, fun hw => ?_⟩
  · rw [hphase]
    nofun
  · rw [hx]
    nofun
  · exact absurd (.inr (.inr (.inl hx))) h
  · refine ⟨?_, hsent hw.sent, ?_⟩
    · rw [hphase]
      exact fun h => h.elim nofun nofun
    · rw [hphase]
      nofun

theorem Inv.chunk (hi : s.Inv) {w : Nat} (bytes : Nat) : (s.chunk w bytes).Inv := by
  simp only [AttachmentStore.chunk]
  split
  · exact hi
  · rename_i hstart
    obtain ⟨hphase, hclaim, -⟩ := not_or.mp hstart |>.imp_right not_or.mp
    rw [not_not] at hphase
    split
    · refine hi.setWriter (.transferring hphase hphase rfl rfl fun h => ?_) id
      exact h.imp_right fun h => Nat.le_trans h (Nat.le_add_right _ _)
    · refine hi.setWriter (.transferring hphase hphase rfl rfl fun h => ?_) id
      exact h.imp_right fun h => Nat.add_le_add_right h _

theorem Inv.endOfStream (hi : s.Inv) {w : Nat} (digestMatches : Bool) :
    (s.endOfStream w digestMatches).Inv := by
  simp only [AttachmentStore.endOfStream]
  split
  · exact hi
  · rename_i hstart
    have hphase := not_not.mp (not_or.mp hstart).1
    exact hi.setWriter (.transferring hphase hphase rfl rfl id) id

theorem Inv.putSucceeded (hi : s.Inv) {w : Nat} : (s.putSucceeded w).Inv := by
  simp only [AttachmentStore.putSucceeded]
  split
  · rename_i h
    obtain ⟨hphase, hdone⟩ := h
    refine hi.setWriter ⟨rfl, fun _ => nofun, ?_, fun h => ?_, id, fun hw => ?_⟩ id
    · rw [hphase]
      nofun
    · exact absurd (.inr (.inr (.inl hphase))) h
    · refine ⟨fun h => h.elim nofun nofun, hw.sent, fun ready h => ⟨?_, fun _ => hdone⟩⟩
      refine not_mayCreate (.inr ⟨_, rfl⟩) fun h => ?_
      rw [hdone] at h
      cases h
  · exact hi

theorem Inv.putFailed (hi : s.Inv) {w : Nat} : (s.putFailed w).Inv := by
  simp only [AttachmentStore.putFailed]
  split
  · exact hi
  · rename_i hphase
    rw [not_not] at hphase
    split
    · rename_i hshort
      refine hi.setWriter ⟨rfl, fun _ => nofun, ?_, fun h => ?_, id, fun hw => ?_⟩ id
      · rw [hphase]
        nofun
      · exact absurd (.inr (.inr (.inl hphase))) h
      · refine ⟨fun h => h.elim nofun nofun, hw.sent, fun ready h => ?_⟩
        cases h
        refine ⟨not_mayCreate (.inr ⟨false, rfl⟩) fun _ => ?_, nofun⟩
        have hsent := hw.sent.resolve_left hshort.1
        simp only [Writer.transmitted, Bool.or_eq_false_iff, decide_eq_false_iff_not]
        exact ⟨hshort.1, Nat.not_le.mpr (Nat.lt_of_le_of_lt hsent hshort.2)⟩
    · refine hi.setWriter ⟨rfl, fun _ => nofun, fun _ => rfl, fun h => ?_, id, fun hw => ?_⟩ id
      · exact absurd (.inr (.inr (.inl hphase))) h
      · exact ⟨fun h => h.elim nofun nofun, hw.sent, nofun⟩

theorem Inv.objectPut (hi : s.Inv) {w : Nat} (hlt : w < s.nextWriter) : (s.objectPut w).Inv := by
  unfold AttachmentStore.objectPut
  split
  · rename_i h
    obtain ⟨hpending, htransmitted⟩ := h
    have hmay : Writer.MayCreate (s.writers w) := .inr (.inr (.inr ⟨hpending, htransmitted⟩))
    have hadvance : Writer.Advance (s.writers w) { s.writers w with request := .done } := by
      refine ⟨rfl, id, id, fun h => absurd hmay h, fun _ => rfl, fun hw => ⟨fun h => ?_, hw.sent, ?_⟩⟩
      · have hnone := hw.early h
        rw [hpending] at hnone
        cases hnone
      · exact fun ready h => absurd hmay (hw.completing ready h).1
    have hall := setWriter_advance (f := fun x => { x with request := .done }) hadvance
    have hother : ∀ k, Quiet s k → k ≠ s.key w := by
      rintro k hquiet rfl
      exact hquiet.2.2 hmay
    have hlater : Later s { s.setWriter w fun x => { x with request := .done } with
        blobs := Function.update s.blobs (s.key w) true } := by
      refine .of_advance hall (Nat.le_refl _) (fun k hquiet h => ?_) fun k h => h.2
      exact (Function.update_of_ne (hother k hquiet) ..).trans h
    refine hi.of_later hlater ?_ (fun v hv => (hall v).wf (hi.writers v hv)) (fun _ => id) rfl rfl rfl
      rfl rfl rfl (fun k hk => (hi.removed k hk).2.1) hi.uploads fun _ _ => id
    intro k row hrow
    have hok := hi.rows k row hrow
    refine ⟨hlater.seen k hok.seen, ?_, fun hw => hlater.quiet k (hok.written hw),
      fun hr => (hall _).done (hok.ready hr), fun hstate hdone => ?_⟩
    · unfold AttachmentStore.key
      rw [(hall _).tenantId]
      exact hok.key
    · dsimp only
      by_cases hk : k = s.key w
      · rw [hk, Function.update_self]
      · rw [Function.update_of_ne hk]
        refine hok.present hstate ?_
        have hne : k.id ≠ w := by
          rintro rfl
          exact hk hok.key.symm
        dsimp only at hdone
        rw [setWriter_writers, if_neg hne] at hdone
        exact hdone
  · exact hi

theorem Inv.createWriter (hi : s.Inv) {x : Writer} (hphase : x.phase = .inserting)
    (hrequest : x.request = .none) (hsent : x.sent = 0) : (s.createWriter x).Inv := by
  have hold : ∀ v < s.nextWriter, (s.createWriter x).writers v = s.writers v :=
    fun v hv => Function.update_of_ne (Nat.ne_of_lt hv) ..
  have hseen : ∀ k, Seen s k → Seen (s.createWriter x) k := by
    intro k h
    refine ⟨Nat.lt_succ_of_lt h.1, ?_⟩
    rw [hold _ h.1]
    exact h.2
  have hquiet : ∀ k, Quiet s k → Quiet (s.createWriter x) k := by
    intro k h
    refine ⟨hseen k h.1, ?_⟩
    rw [hold _ h.1.1]
    exact h.2
  refine hi.of_later ⟨hseen, hquiet, fun k h => ⟨hseen k h.1, h.2⟩, fun _ _ => id⟩ ?_ ?_ (fun _ => id) rfl
    rfl rfl rfl rfl rfl (fun k hk => (hi.removed k hk).2.1) hi.uploads fun _ _ => id
  · intro k row hrow
    have hok := hi.rows k row hrow
    have hwriter := hold _ hok.seen.1
    refine ⟨hseen k hok.seen, ?_, fun hw => hquiet k (hok.written hw), ?_, ?_⟩
    · unfold AttachmentStore.key
      rw [hwriter]
      exact hok.key
    · rw [hwriter]
      exact hok.ready
    · rw [hwriter]
      exact hok.present
  · intro v hv
    obtain hv | rfl := Nat.lt_succ_iff_lt_or_eq.mp hv
    · rw [hold v hv]
      exact hi.writers v hv
    · have hself : (s.createWriter x).writers s.nextWriter = x := Function.update_self ..
      rw [hself]
      refine ⟨fun _ => hrequest, .inr (hsent ▸ Nat.zero_le _), fun ready h => ?_⟩
      rw [hphase] at h
      cases h

theorem uploaded_eq_false {k : AttachmentKey} : s.uploaded k = false ↔
    ∀ id u, s.uploads.get id = some u → u.tenantId = k.tenantId → u.attachmentId ≠ some k.id := by
  unfold uploaded
  rw [List.any_eq_false]
  constructor
  · intro h id u hget htenant hattachment
    refine h (id, u) (InsertionMap.mem_entries.mpr hget) ?_
    simp [htenant, hattachment]
  · rintro h ⟨id, u⟩ he htrue
    simp only [Bool.and_eq_true, decide_eq_true_eq] at htrue
    exact h id u (InsertionMap.mem_entries.mp he) htrue.1 htrue.2

theorem Inv.insertRow (hi : s.Inv) {w : Nat} (hlt : w < s.nextWriter)
    (hphase : (s.writers w).phase = .inserting) (now : Int) {uploads : InsertionMap Nat SessionUpload}
    (huploads : ∀ id u, uploads.get id = some u → s.uploads.get id = some u ∨
      (u.tenantId = (s.writers w).tenantId ∧ u.attachmentId = some w)) :
    Inv { (s.setRow (s.key w) (some (newRow (s.writers w) now))).setWriter w fun x =>
      { x with phase := .inserted } with uploads := uploads } := by
  have hnone := (hi.writers w hlt).early (.inl hphase)
  have hadvance : Writer.Advance (s.writers w) { s.writers w with phase := .inserted } := by
    refine ⟨rfl, fun _ => nofun, ?_, fun h => absurd (.inl hphase) h, id, fun hw => ?_⟩
    · rw [hphase]
      nofun
    · exact ⟨fun _ => hnone, hw.sent, nofun⟩
  have hall := setWriter_advance (f := fun x => { x with phase := .inserted }) hadvance
  have hother : ∀ k, Seen s k → k ≠ s.key w := by
    rintro k hseen rfl
    exact hseen.2 hphase
  have habsent : ∀ k row, s.inventory k = some row → k ≠ s.key w :=
    fun k row hrow => hother k (hi.rows k row hrow).seen
  generalize ht : { (s.setRow (s.key w) (some (newRow (s.writers w) now))).setWriter w fun x =>
      { x with phase := .inserted } with uploads := uploads } = t
  have hinventory : ∀ k, t.inventory k =
      if k = s.key w then some (newRow (s.writers w) now) else s.inventory k := by
    intro k
    subst ht
    exact Function.update_apply ..
  have hwriters : ∀ v, Writer.Advance (s.writers v) (t.writers v) := by
    subst ht
    exact hall
  have hself : (t.writers w).phase = .inserted ∧ (t.writers w).request = .none := by
    subst ht
    have : ((s.setWriter w fun x => { x with phase := .inserted }).writers w) =
        { s.writers w with phase := .inserted } := by
      rw [setWriter_writers, if_pos rfl]
    exact ⟨congrArg Writer.phase this, (congrArg Writer.request this).trans hnone⟩
  have hrest : ∀ v, v ≠ w → t.writers v = s.writers v := by
    intro v hv
    subst ht
    exact Function.update_of_ne hv ..
  have hlater : Later s t := by
    refine .of_advance hwriters ?_ ?_ ?_
    · subst ht
      exact Nat.le_refl _
    · subst ht
      exact fun _ _ => id
    · intro k h row hrow
      rw [hinventory, if_neg (hother k h.1)] at hrow
      exact h.2 row hrow
  have hkeep : ∀ k row, s.inventory k = some row → t.inventory k = some row := by
    intro k row hrow
    rw [hinventory, if_neg (habsent k row hrow)]
    exact hrow
  refine hi.of_later hlater ?_ ?_ ?_ ?_ ?_ ?_ ?_ ?_ ?_ ?_ ?_ ?_
  · intro k row hrow
    rw [hinventory] at hrow
    split at hrow
    · rename_i hk
      cases hrow
      subst hk
      refine ⟨⟨?_, ?_⟩, ?_, nofun, nofun, fun _ hdone => ?_⟩
      · subst ht
        exact hlt
      · show (t.writers w).phase ≠ .inserting
        rw [hself.1]
        nofun
      · unfold AttachmentStore.key
        rw [(hwriters w).tenantId]
      · have hdone : (t.writers w).request = .done := hdone
        rw [hself.2] at hdone
        cases hdone
    · have hok := hi.rows k row hrow
      have hne : k.id ≠ w := by
        rintro rfl
        exact habsent k row hrow hok.key.symm
      refine ⟨hlater.seen k hok.seen, ?_, fun hw => hlater.quiet k (hok.written hw), ?_, ?_⟩
      · unfold AttachmentStore.key
        rw [(hwriters _).tenantId]
        exact hok.key
      · rw [hrest _ hne]
        exact hok.ready
      · rw [hrest _ hne]
        subst ht
        exact hok.present
  · subst ht
    exact fun v hv => (hall v).wf (hi.writers v hv)
  · rintro k ⟨row, hrow, hstate⟩
    exact ⟨row, hkeep k row hrow, hstate⟩
  · subst ht
    rfl
  · subst ht
    rfl
  · subst ht
    rfl
  · subst ht
    rfl
  · subst ht
    rfl
  · subst ht
    rfl
  · intro k hk
    obtain ⟨hquiet, hrow, _⟩ := hi.removed k hk
    rw [hinventory, if_neg (hother k hquiet.1)]
    exact hrow
  · intro id u a hget hattachment
    have hget : uploads.get id = some u := by
      subst ht
      exact hget
    obtain hold | ⟨htenant, hnew⟩ := huploads id u hget
    · obtain ⟨row, hrow, hstate⟩ := hi.uploads id u a hold hattachment
      exact ⟨row, hkeep _ row hrow, hstate⟩
    · rw [hnew] at hattachment
      cases hattachment
      refine ⟨newRow (s.writers w) now, ?_, nofun⟩
      rw [hinventory, if_pos]
      unfold AttachmentStore.key
      rw [htenant]
  · intro k hseen hfalse
    rw [uploaded_eq_false] at hfalse ⊢
    intro id u hget htenant hattachment
    have hget : uploads.get id = some u := by
      subst ht
      exact hget
    obtain hold | ⟨htenant', hnew⟩ := huploads id u hget
    · exact hfalse id u hold htenant hattachment
    · refine hother k hseen ?_
      rw [hnew] at hattachment
      unfold AttachmentStore.key
      rw [← htenant', htenant]
      cases hattachment
      rfl

theorem Inv.insert (hi : s.Inv) {w : Nat} (hlt : w < s.nextWriter) (now : Int) : (s.insert w now).Inv := by
  simp only [AttachmentStore.insert]
  split
  · exact hi
  · rename_i hphase
    rw [not_not] at hphase
    have hfinish : (s.setWriter w fun x => { x with phase := .finished }).Inv := by
      refine hi.setWriter ⟨rfl, fun _ => by rintro ⟨⟩, fun _ => rfl, ?_, id, fun hw => ?_⟩ id
      · exact fun h => absurd (.inl hphase) h
      · exact ⟨fun h => h.elim (by rintro ⟨⟩) (by rintro ⟨⟩), hw.sent, by simp⟩
    split
    · exact hi.insertRow hlt hphase now fun id u => .inl
    · rename_i claim _
      split
      · exact hfinish
      · rename_i upload _
        split
        · rename_i hclaim
          refine hi.insertRow hlt hphase now fun id u hget => ?_
          rw [InsertionMap.get_set] at hget
          split at hget
          · cases hget
            exact .inr ⟨hclaim.1, rfl⟩
          · exact .inl hget
        · exact hfinish

theorem Inv.completeRow (hi : s.Inv) {w : Nat}
    (hadvance : Writer.Advance (s.writers w) { s.writers w with phase := .finished })
    (hquiet : ¬ Writer.MayCreate (s.writers w)) {row next : InventoryRow}
    (hrow : s.inventory (s.key w) = some row)
    (hdeleting : row.state = .deleting ↔ next.state = .deleting)
    (hready : row.state = .ready → next.state = .ready)
    (hdone : next.state = .ready → (s.writers w).request = .done) :
    ((s.setRow (s.key w) (some next)).setWriter w fun x => { x with phase := .finished }).Inv := by
  have hok := hi.rows _ row hrow
  generalize ht : ((s.setRow (s.key w) (some next)).setWriter w fun x =>
    { x with phase := .finished }) = t
  have hinventory : ∀ k, t.inventory k = if k = s.key w then some next else s.inventory k := by
    intro k
    subst ht
    exact Function.update_apply ..
  have hwriters : ∀ v, Writer.Advance (s.writers v) (t.writers v) := by
    subst ht
    exact setWriter_advance (f := fun x => { x with phase := .finished }) hadvance
  have hrequest : ∀ v, (t.writers v).request = (s.writers v).request := by
    intro v
    subst ht
    show ((s.setWriter w fun x => { x with phase := .finished }).writers v).request = _
    rw [setWriter_writers]
    split
    · rename_i hv
      rw [hv]
    · rfl
  have hself : (t.writers w).phase = .finished := by
    subst ht
    show ((s.setWriter w fun x => { x with phase := .finished }).writers w).phase = _
    rw [setWriter_writers, if_pos rfl]
  have hlater : Later s t := by
    refine .of_advance hwriters ?_ ?_ ?_
    · subst ht
      exact Nat.le_refl _
    · subst ht
      exact fun _ _ => id
    · intro k h row' hrow'
      rw [hinventory] at hrow'
      split at hrow'
      · rename_i hk
        cases hrow'
        subst hk
        exact hdeleting.mp (h.2 row hrow)
      · exact h.2 row' hrow'
  have hstates : ∀ k row', s.inventory k = some row' → ∃ next', t.inventory k = some next' ∧
      (row'.state = .deleting ↔ next'.state = .deleting) ∧
      (row'.state = .ready → next'.state = .ready) := by
    intro k row' hrow'
    rw [hinventory]
    split
    · rename_i hk
      subst hk
      rw [hrow] at hrow'
      cases hrow'
      exact ⟨next, rfl, hdeleting, hready⟩
    · exact ⟨row', hrow', Iff.rfl, id⟩
  refine hi.of_later hlater ?_ ?_ ?_ ?_ ?_ ?_ ?_ ?_ ?_ ?_ ?_ ?_
  · intro k row' hrow'
    rw [hinventory] at hrow'
    split at hrow'
    · rename_i hk
      cases hrow'
      subst hk
      refine ⟨hlater.seen _ hok.seen, ?_, fun _ => ?_, ?_, ?_⟩
      · unfold AttachmentStore.key
        rw [(hwriters w).tenantId]
      · exact ⟨hlater.seen _ hok.seen, hself, (hwriters w).quiet hquiet⟩
      · intro h
        rw [hrequest]
        exact hdone h
      · intro hstate
        rw [hrequest]
        subst ht
        exact hok.present (mt hdeleting.mp hstate)
    · have hok' := hi.rows k row' hrow'
      refine ⟨hlater.seen k hok'.seen, ?_, fun hw => hlater.quiet k (hok'.written hw), ?_, ?_⟩
      · unfold AttachmentStore.key
        rw [(hwriters _).tenantId]
        exact hok'.key
      · rw [hrequest]
        exact hok'.ready
      · rw [hrequest]
        subst ht
        exact hok'.present
  · intro v hv
    subst ht
    exact (hwriters v).wf (hi.writers v hv)
  · rintro k ⟨row', hrow', hstate⟩
    obtain ⟨next', hnext, _, hkeep⟩ := hstates k row' hrow'
    exact ⟨next', hnext, hkeep hstate⟩
  · subst ht
    rfl
  · subst ht
    rfl
  · subst ht
    rfl
  · subst ht
    rfl
  · subst ht
    rfl
  · subst ht
    rfl
  · intro k hk
    have hnone := (hi.removed k hk).2.1
    rw [hinventory, if_neg]
    · exact hnone
    · rintro rfl
      rw [hrow] at hnone
      cases hnone
  · intro id u a hget hattachment
    have hget : s.uploads.get id = some u := by
      subst ht
      exact hget
    obtain ⟨row', hrow', hstate⟩ := hi.uploads id u a hget hattachment
    obtain ⟨next', hnext, hiff, _⟩ := hstates _ row' hrow'
    exact ⟨next', hnext, mt hiff.mpr hstate⟩
  · subst ht
    exact fun _ _ => id

theorem Inv.writeCompleted (hi : s.Inv) {w : Nat} (hlt : w < s.nextWriter) :
    (s.writeCompleted w).Inv := by
  unfold AttachmentStore.writeCompleted
  split
  · rename_i ready hphase
    obtain ⟨hquiet, hdone⟩ := (hi.writers w hlt).completing ready hphase
    have hadvance : Writer.Advance (s.writers w) { s.writers w with phase := .finished } := by
      refine ⟨rfl, fun _ => nofun, fun _ => rfl, fun h => ?_, id, fun hw => ?_⟩
      · exact not_mayCreate (.inl rfl) fun hp => by
          by_contra ht
          exact h (.inr (.inr (.inr ⟨hp, (Bool.not_eq_false _).mp ht⟩)))
      · exact ⟨fun h => h.elim nofun nofun, hw.sent, nofun⟩
    split
    · split
      · exact hi.setWriter hadvance id
      · rename_i row hrow
        have hok := hi.rows _ row hrow
        have hready : row.state = .uploading ∧ ready = true → (s.writers w).request = .done :=
          fun h => hdone h.2
        refine hi.completeRow hadvance hquiet hrow ?_ ?_ ?_
        · dsimp only
          split
          · rename_i h
            rw [h.1]
            exact ⟨nofun, nofun⟩
          · exact Iff.rfl
        · intro hstate
          dsimp only
          rw [if_neg]
          · exact hstate
          · rw [hstate]
            exact fun h => nomatch h.1
        · intro hstate
          dsimp only at hstate
          split at hstate
          · rename_i h
            exact hready h
          · exact hok.ready hstate
    · exact hi
  · exact hi

/-! ### Steps of retaining transactions -/

theorem mem_lockedForUpdate {k : AttachmentKey} :
    s.lockedForUpdate k = true ↔ ∃ r < s.nextReaper, k ∈ (s.reapers r).locked := by
  simp [lockedForUpdate, List.any_eq_true]

theorem mem_lockedForShare {k : AttachmentKey} :
    s.lockedForShare k = true ↔ ∃ t < s.nextRetention, k ∈ Retention.keys (s.retentions t) := by
  simp [lockedForShare, List.any_eq_true]

theorem Inv.setRetentions (hi : s.Inv) {retentions : Nat → Retention} {nextRetention : Nat}
    (h : ∀ u < nextRetention, u < s.nextRetention ∧ retentions u = s.retentions u ∨
      (∀ k ∈ Retention.keys (retentions u), Ready s k ∧ s.lockedForUpdate k = false) ∧
        ∀ r ∈ (retentions u).inserted, r.key ∈ Retention.keys (retentions u)) :
    Inv { s with retentions, nextRetention } := by
  refine ⟨fun k row hrow => (hi.rows k row hrow).frame rfl rfl rfl, hi.writers, fun r hr => ?_, ?_, ?_,
    ?_, hi.references, hi.uploads, hi.removed⟩
  · obtain ⟨hclaimed, hqueue, hhead, herased, habandoned⟩ := hi.reapers r hr
    exact ⟨hclaimed, hqueue, hhead, herased, habandoned⟩
  · intro r hr k hk u hu hmem
    obtain ⟨hold, hsame⟩ | ⟨hkeys, -⟩ := h u hu
    · exact hi.exclusive r hr k hk u hold (hsame ▸ hmem)
    · have hlocked : s.lockedForUpdate k = true := mem_lockedForUpdate.mpr ⟨r, hr, hk⟩
      rw [(hkeys k hmem).2] at hlocked
      cases hlocked
  · intro u hu k hk
    obtain ⟨hold, hsame⟩ | ⟨hkeys, -⟩ := h u hu
    · exact hi.retained u hold k (hsame ▸ hk)
    · exact (hkeys k hk).1
  · intro u hu r hr
    obtain ⟨hold, hsame⟩ | ⟨-, hinserted⟩ := h u hu
    · dsimp only at hr ⊢
      rw [hsame] at hr ⊢
      exact hi.inserted u hold r hr
    · exact hinserted r hr

theorem Inv.setRetention (hi : s.Inv) {t : Nat} {f : Retention → Retention}
    (hkeys : ∀ k ∈ Retention.keys (f (s.retentions t)), Ready s k ∧ s.lockedForUpdate k = false)
    (hinserted : ∀ r ∈ (f (s.retentions t)).inserted, r.key ∈ Retention.keys (f (s.retentions t))) :
    (s.setRetention t f).Inv := by
  refine hi.setRetentions fun u hu => ?_
  by_cases hut : u = t
  · subst hut
    rw [Function.update_self]
    exact .inr ⟨hkeys, hinserted⟩
  · exact .inl ⟨hu, Function.update_of_ne hut ..⟩

theorem Inv.locked (hi : s.Inv) {t : Nat} (hlt : t < s.nextRetention) {k : AttachmentKey}
    (hk : k ∈ Retention.keys (s.retentions t)) : Ready s k ∧ s.lockedForUpdate k = false := by
  refine ⟨hi.retained t hlt k hk, ?_⟩
  rw [← Bool.not_eq_true, mem_lockedForUpdate]
  rintro ⟨r, hr, hlocked⟩
  exact hi.exclusive r hr k hlocked t hlt hk

theorem Inv.begin (hi : s.Inv) (tenantId : Nat) : (s.act (.begin tenantId)).Inv := by
  refine hi.setRetentions fun u hu => ?_
  obtain hu | rfl := Nat.lt_succ_iff_lt_or_eq.mp hu
  · exact .inl ⟨hu, Function.update_of_ne (Nat.ne_of_lt hu) ..⟩
  · rw [Function.update_self]
    exact .inr ⟨nofun, nofun⟩

theorem Inv.lockForShare (hi : s.Inv) {t : Nat} (hlt : t < s.nextRetention) (id : Nat) :
    (s.lockForShare t id).Inv := by
  simp only [AttachmentStore.lockForShare]
  split
  · exact hi
  · rename_i hfree
    split
    · exact hi
    · rename_i row hrow
      split
      · rename_i hready
        refine hi.setRetention (fun k hk => ?_) fun r hr => ?_
        · unfold Retention.keys at hk
          rw [List.map_append] at hk
          obtain hk | rfl := mem_snoc.mp hk
          · exact hi.locked hlt hk
          · exact ⟨⟨row, hrow, hready⟩, by simpa using hfree⟩
        · unfold Retention.keys
          rw [List.map_append]
          exact List.mem_append_left _ (hi.inserted t hlt r hr)
      · exact hi

theorem mem_keys {x : Retention} {id : Nat} {c : Contents} (h : (id, c) ∈ x.locked) :
    ({ tenantId := x.tenantId, id } : AttachmentKey) ∈ Retention.keys x :=
  List.mem_map.mpr ⟨(id, c), h, rfl⟩

theorem Inv.retain (hi : s.Inv) {t : Nat} (hlt : t < s.nextRetention) (sessionId : Nat)
    (refs : List (Nat × Contents)) : (s.retain t sessionId refs).Inv := by
  unfold AttachmentStore.retain
  split
  · rename_i hall
    refine hi.setRetention (fun k hk => hi.locked hlt hk) fun r hr => ?_
    obtain hr | hr := List.mem_append.mp hr
    · exact hi.inserted t hlt r hr
    · obtain ⟨⟨id, c⟩, href, rfl⟩ := List.mem_map.mp hr
      exact mem_keys (of_decide_eq_true (List.all_eq_true.mp hall (id, c) href))
  · exact hi

theorem Inv.referHistory (hi : s.Inv) {t : Nat} (hlt : t < s.nextRetention) (table : ReferenceTable)
    (owner id : Nat) : (s.referHistory t table owner id).Inv := by
  unfold AttachmentStore.referHistory
  split
  · rename_i hany
    refine hi.setRetention (fun k hk => hi.locked hlt hk) fun r hr => ?_
    obtain hr | rfl := mem_snoc.mp hr
    · exact hi.inserted t hlt r hr
    · obtain ⟨⟨id', c⟩, he, hid⟩ := List.any_eq_true.mp hany
      obtain rfl := of_decide_eq_true hid
      exact mem_keys he
  · exact hi

theorem Inv.finishRetention (hi : s.Inv) (t : Nat) : (s.setRetention t finishRetention).Inv :=
  hi.setRetention nofun nofun

theorem mem_addReference {references inserted : List Reference} {r : Reference} :
    r ∈ inserted.foldl addReference references → r ∈ references ∨ r ∈ inserted := by
  induction inserted generalizing references with
  | nil => exact .inl
  | cons x inserted ih =>
    intro h
    obtain h | h := ih h
    · unfold addReference at h
      split at h
      · exact .inl h
      · obtain h | h := List.mem_append.mp h
        · exact .inl h
        · exact .inr (List.mem_cons.mpr (.inl (List.mem_singleton.mp h)))
    · exact .inr (List.mem_cons_of_mem x h)

theorem Inv.commit (hi : s.Inv) {t : Nat} (hlt : t < s.nextRetention) : (s.commit t).Inv := by
  obtain ⟨hrows, hwriters, hreapers, hexclusive, hretained, hinserted, -, huploads, hremoved⟩ :=
    hi.finishRetention t
  have hnew : ∀ r ∈ (s.commit t).references, r ∈ s.references ∨
      r.key ∈ Retention.keys (s.retentions t) :=
    fun r hr => (mem_addReference hr).imp_right (hi.inserted t hlt r)
  refine ⟨fun k row hrow => ?_, hwriters, fun r hr => ?_, hexclusive, hretained, hinserted, ?_, huploads,
    hremoved⟩
  · exact (hrows k row hrow).frame rfl rfl rfl
  · have hlater : Later s (s.commit t) :=
      ⟨fun _ => id, fun _ => id, fun _ => id, fun _ _ => id⟩
    refine hlater.reaperOk (hi.reapers r hr) fun k hk _ href hup => ⟨?_, hup⟩
    rw [← Bool.not_eq_true] at href ⊢
    intro hany
    obtain ⟨reference, hmem, hkey⟩ := List.any_eq_true.mp hany
    obtain hold | hlocked := hnew reference hmem
    · exact href (List.any_eq_true.mpr ⟨reference, hold, hkey⟩)
    · rw [of_decide_eq_true hkey] at hlocked
      exact hi.exclusive r hr k hk t hlt hlocked
  · intro r hr
    obtain hold | hlocked := hnew r hr
    · exact hi.references r hold
    · exact hi.retained t hlt _ hlocked

/-! ### Steps of reapers -/

theorem setReaper_reapers (s : AttachmentStore) (r q : Nat) (f : Reaper → Reaper) :
    (s.setReaper r f).reapers q = if q = r then f (s.reapers r) else s.reapers q :=
  Function.update_apply ..

theorem Inv.setReaper (hi : s.Inv) {r : Nat} {f : Reaper → Reaper} (hok : ReaperOk s (f (s.reapers r)))
    (hlocked : ∀ k ∈ (f (s.reapers r)).locked, ∀ t < s.nextRetention,
      k ∉ Retention.keys (s.retentions t)) : (s.setReaper r f).Inv := by
  refine ⟨fun k row hrow => ?_, hi.writers, fun q hq => ?_, ?_, hi.retained, hi.inserted,
    hi.references, hi.uploads, hi.removed⟩
  · exact (hi.rows k row hrow).frame rfl rfl rfl
  · have hok' : ReaperOk s ((s.setReaper r f).reapers q) := by
      rw [setReaper_reapers]
      split
      · exact hok
      · exact hi.reapers q hq
    exact ⟨hok'.claimed, hok'.queue, hok'.head, hok'.erased, hok'.abandoned⟩
  · intro q hq k hk t ht
    rw [setReaper_reapers] at hk
    split at hk
    · exact hlocked k hk t ht
    · exact hi.exclusive q hq k hk t ht

theorem Inv.reap (hi : s.Inv) (graceMs now : Int) : (s.reap graceMs now).Inv := by
  unfold AttachmentStore.reap
  split
  · exact hi
  · refine ⟨fun k row hrow => ?_, hi.writers, fun q hq => ?_, ?_, hi.retained, hi.inserted,
      hi.references, hi.uploads, hi.removed⟩
    · exact (hi.rows k row hrow).frame rfl rfl rfl
    · dsimp only at hq ⊢
      obtain hq | rfl := Nat.lt_succ_iff_lt_or_eq.mp hq
      · rw [Function.update_of_ne (Nat.ne_of_lt hq)]
        have hok := hi.reapers q hq
        exact ⟨hok.claimed, hok.queue, hok.head, hok.erased, hok.abandoned⟩
      · rw [Function.update_self]
        exact ⟨nofun, nofun, nofun, nofun, nofun⟩
    · intro q hq k hk
      dsimp only at hq hk
      obtain hq | rfl := Nat.lt_succ_iff_lt_or_eq.mp hq
      · rw [Function.update_of_ne (Nat.ne_of_lt hq)] at hk
        exact hi.exclusive q hq k hk
      · rw [Function.update_self] at hk
        cases hk

theorem Inv.lockForUpdate (hi : s.Inv) {r : Nat} (hlt : r < s.nextReaper) (k : AttachmentKey) :
    (s.lockForUpdate r k).Inv := by
  simp only [AttachmentStore.lockForUpdate]
  split
  · rename_i h
    obtain ⟨hnone, _, _, _, hunlocked⟩ := h
    have hok := hi.reapers r hlt
    refine hi.setReaper ⟨fun rows hrows => ?_, hok.queue, hok.head, hok.erased, hok.abandoned⟩ ?_
    · dsimp only at hrows
      rw [hnone] at hrows
      cases hrows
    · intro j hj t ht hmem
      obtain hj | rfl := mem_snoc.mp hj
      · exact hi.exclusive r hlt j hj t ht hmem
      · unfold unlocked at hunlocked
        rw [mem_lockedForShare.mpr ⟨t, ht, hmem⟩] at hunlocked
        simp at hunlocked
  · exact hi

theorem Inv.claim (hi : s.Inv) {r : Nat} (hlt : r < s.nextReaper) : (s.claim r).Inv := by
  unfold AttachmentStore.claim
  split
  · have hok := hi.reapers r hlt
    refine hi.setReaper ⟨?_, hok.queue, hok.head, hok.erased, hok.abandoned⟩ (hi.exclusive r hlt)
    rintro rows hrows e he
    cases hrows
    obtain ⟨k, hk, hclaim⟩ := List.mem_filterMap.mp he
    unfold claimRow at hclaim
    split at hclaim
    · cases hclaim
    · rename_i row hrow
      split at hclaim
      · rename_i hunreachable
        cases hclaim
        simp only [unreachable, Bool.and_eq_true, Bool.not_eq_true'] at hunreachable
        have hrowok := hi.rows k row hrow
        exact ⟨hk, hrowok.seen, hunreachable.1.1, hunreachable.1.2, hrowok.written⟩
      · cases hclaim
  · exact hi

theorem Inv.rollbackReap (hi : s.Inv) {r : Nat} (hlt : r < s.nextReaper) : (s.rollbackReap r).Inv := by
  have hok := hi.reapers r hlt
  exact hi.setReaper ⟨nofun, hok.queue, hok.head, hok.erased, hok.abandoned⟩ nofun

theorem Inv.setRow (hi : s.Inv) {k : AttachmentKey} {next : Option InventoryRow} (hseen : Seen s k)
    (hready : ¬ Ready s k ∨ (s.referenced k = false ∧
      ∀ t < s.nextRetention, k ∉ Retention.keys (s.retentions t)))
    (huploaded : s.uploaded k = false ∨ ∀ row, s.inventory k = some row → row.state = .deleting)
    (hnext : ∀ n, next = some n → n.state = .deleting ∧
      ∃ row, s.inventory k = some row ∧ (n.writeCompleted = true → row.writeCompleted = true)) :
    (s.setRow k next).Inv ∧ Later s (s.setRow k next) ∧ Doomed (s.setRow k next) k := by
  have hinventory : ∀ j, (s.setRow k next).inventory j = if j = k then next else s.inventory j :=
    fun j => Function.update_apply ..
  have hdoomed : Doomed (s.setRow k next) k := by
    refine ⟨hseen, fun row hrow => ?_⟩
    rw [hinventory, if_pos rfl] at hrow
    exact (hnext row hrow).1
  have hlater : Later s (s.setRow k next) := by
    refine ⟨fun _ => id, fun _ => id, fun j hj => ?_, fun _ _ => id⟩
    by_cases hjk : j = k
    · rw [hjk]
      exact hdoomed
    · refine ⟨hj.1, fun row hrow => ?_⟩
      rw [hinventory, if_neg hjk] at hrow
      exact hj.2 row hrow
  have hkeep : ∀ j, Ready s j → (s.referenced j = true ∨
      ∃ t < s.nextRetention, j ∈ Retention.keys (s.retentions t)) → Ready (s.setRow k next) j := by
    rintro j ⟨row, hrow, hstate⟩ hrelied
    refine ⟨row, ?_, hstate⟩
    rw [hinventory, if_neg]
    · exact hrow
    · rintro rfl
      obtain hnot | ⟨href, hfree⟩ := hready
      · exact hnot ⟨row, hrow, hstate⟩
      · obtain h | ⟨t, ht, hmem⟩ := hrelied
        · rw [href] at h
          cases h
        · exact hfree t ht hmem
  refine ⟨⟨?_, hi.writers, ?_, hi.exclusive, ?_, hi.inserted, ?_, ?_, ?_⟩, hlater, hdoomed⟩
  · intro j row hrow
    rw [hinventory] at hrow
    split at hrow
    · rename_i hjk
      subst hjk
      obtain ⟨hdeleting, old, hold, hwritten⟩ := hnext row hrow
      have hok := hi.rows j old hold
      refine ⟨hok.seen, hok.key, fun h => hok.written (hwritten h), ?_, fun h => absurd hdeleting h⟩
      rw [hdeleting]
      nofun
    · exact (hi.rows j row hrow).frame rfl rfl rfl
  · exact fun r hr => hlater.reaperOk (hi.reapers r hr) fun _ _ _ href hup => ⟨href, hup⟩
  · exact fun t ht j hj => hkeep j (hi.retained t ht j hj) (.inr ⟨t, ht, hj⟩)
  · intro r hr
    refine hkeep _ (hi.references r hr) (.inl ?_)
    exact List.any_eq_true.mpr ⟨r, hr, decide_eq_true rfl⟩
  · intro id u a hget hattachment
    obtain ⟨row, hrow, hstate⟩ := hi.uploads id u a hget hattachment
    refine ⟨row, ?_, hstate⟩
    rw [hinventory, if_neg]
    · exact hrow
    · rintro rfl
      obtain hup | hdeleting := huploaded
      · exact uploaded_eq_false.mp hup id u hget rfl hattachment
      · exact hstate (hdeleting row hrow)
  · intro j hj
    obtain ⟨hquiet, hnone, hblob⟩ := hi.removed j hj
    refine ⟨hquiet, ?_, hblob⟩
    rw [hinventory]
    split
    · rename_i hjk
      subst hjk
      cases hn : next with
      | none => rfl
      | some n =>
        obtain ⟨_, row, hrow, _⟩ := hnext n hn
        rw [hnone] at hrow
        cases hrow
    · exact hnone

def Claimable (s : AttachmentStore) (e : AttachmentKey × Bool) : Prop :=
  Seen s e.1 ∧ s.referenced e.1 = false ∧ s.uploaded e.1 = false ∧ (e.2 = true → Quiet s e.1) ∧
    ∀ t < s.nextRetention, e.1 ∉ Retention.keys (s.retentions t)

theorem Inv.toDeleting (hi : s.Inv) {e : AttachmentKey × Bool} (h : Claimable s e) :
    (s.toDeleting e).Inv ∧ Later s (s.toDeleting e) ∧ Doomed (s.toDeleting e) e.1 := by
  refine hi.setRow h.1 (.inr ⟨h.2.1, h.2.2.2.2⟩) (.inl h.2.2.1) fun n hn => ?_
  obtain ⟨row, hrow, rfl⟩ := Option.map_eq_some_iff.mp hn
  exact ⟨rfl, row, hrow, id⟩

theorem Inv.toDeletings (hi : s.Inv) {rows : List (AttachmentKey × Bool)}
    (h : ∀ e ∈ rows, Claimable s e) : (rows.foldl AttachmentStore.toDeleting s).Inv ∧
      Later s (rows.foldl AttachmentStore.toDeleting s) ∧
      (∀ e ∈ rows, Doomed (rows.foldl AttachmentStore.toDeleting s) e.1) ∧
      (rows.foldl AttachmentStore.toDeleting s).reapers = s.reapers ∧
      (rows.foldl AttachmentStore.toDeleting s).nextReaper = s.nextReaper := by
  induction rows generalizing s with
  | nil => exact ⟨hi, ⟨fun _ => id, fun _ => id, fun _ => id, fun _ _ => id⟩, nofun, rfl, rfl⟩
  | cons e rows ih =>
    obtain ⟨hi', hlater, hdoomed⟩ := hi.toDeleting (h e List.mem_cons_self)
    have hrest : ∀ d ∈ rows, Claimable (s.toDeleting e) d := by
      intro d hd
      obtain ⟨hseen, href, hup, hquiet, hfree⟩ := h d (List.mem_cons_of_mem e hd)
      exact ⟨hseen, href, hup, hquiet, hfree⟩
    obtain ⟨hinv, hlater', hall, hreapers, hnext⟩ := ih hi' hrest
    refine ⟨hinv, ?_, ?_, hreapers, hnext⟩
    · exact ⟨fun k => hlater'.seen k ∘ hlater.seen k, fun k => hlater'.quiet k ∘ hlater.quiet k,
        fun k => hlater'.doomed k ∘ hlater.doomed k,
        fun k hk h => hlater'.erased k (hlater.quiet k hk) (hlater.erased k hk h)⟩
    · intro d hd
      obtain rfl | hd := List.mem_cons.mp hd
      · exact hlater'.doomed _ hdoomed
      · exact hall d hd

theorem Inv.commitReap (hi : s.Inv) {r : Nat} (hlt : r < s.nextReaper) : (s.commitReap r).Inv := by
  unfold AttachmentStore.commitReap
  split
  · exact hi
  · rename_i rows hrows
    have hok := hi.reapers r hlt
    have hclaimable : ∀ e ∈ rows, Claimable s e := by
      intro e he
      obtain ⟨hlocked, hseen, href, hup, hquiet⟩ := hok.claimed rows hrows e he
      exact ⟨hseen, href, hup, hquiet, hi.exclusive r hlt e.1 hlocked⟩
    obtain ⟨hinv, hlater, hdoomed, hreapers, hnext⟩ := hi.toDeletings hclaimable
    have hok' := hinv.reapers r (hnext.symm ▸ hlt)
    refine hinv.setReaper ⟨nofun, ?_, ?_, ?_, hok'.abandoned⟩ nofun
    · intro e he
      rw [hreapers] at he
      obtain he | he := List.mem_append.mp he
      · rw [hreapers] at hok'
        exact hok'.queue e he
      · exact ⟨hdoomed e he, fun h => hlater.quiet _ ((hclaimable e he).2.2.2.1 h)⟩
    · intro d hd
      have hhead := hok'.head d hd
      dsimp only
      cases hqueue : ((rows.foldl AttachmentStore.toDeleting s).reapers r).queue with
      | nil =>
        rw [hqueue] at hhead
        cases hhead
      | cons e rest =>
        rw [hqueue] at hhead
        exact hhead
    · intro d hd hdone e he hflag
      have hhead := hok'.head d hd
      refine hok'.erased d hd hdone e ?_ hflag
      dsimp only at he
      cases hqueue : ((rows.foldl AttachmentStore.toDeleting s).reapers r).queue with
      | nil =>
        rw [hqueue] at hhead
        cases hhead
      | cons x rest =>
        rw [hqueue] at he
        exact he

theorem Inv.deleteObject (hi : s.Inv) {r : Nat} (hlt : r < s.nextReaper) : (s.deleteObject r).Inv := by
  unfold AttachmentStore.deleteObject
  split
  · rename_i e rest hqueue hnone
    have hok := hi.reapers r hlt
    refine hi.setReaper ⟨hok.claimed, hok.queue, ?_, ?_, hok.abandoned⟩ (hi.exclusive r hlt)
    · intro d hd
      cases hd
      dsimp only
      rw [hqueue]
      rfl
    · intro d hd hdone
      cases hd
      cases hdone
  · exact hi

theorem Inv.eraseBlob (hi : s.Inv) {k : AttachmentKey} (hk : Doomed s k) :
    Inv { s with blobs := Function.update s.blobs k false } := by
  have herased : ∀ j, s.blobs j = false → Function.update s.blobs k false j = false := by
    intro j hj
    rw [Function.update_apply]
    split
    · rfl
    · exact hj
  have hlater : Later s { s with blobs := Function.update s.blobs k false } :=
    ⟨fun _ => id, fun _ => id, fun _ => id, fun j _ => herased j⟩
  refine ⟨fun j row hrow => ?_, hi.writers, ?_, hi.exclusive, hi.retained, hi.inserted, hi.references,
    hi.uploads, ?_⟩
  · obtain ⟨hseen, hkey, hwritten, hready, hpresent⟩ := hi.rows j row hrow
    refine ⟨hseen, hkey, hwritten, hready, fun hstate hdone => ?_⟩
    dsimp only
    rw [Function.update_of_ne]
    · exact hpresent hstate hdone
    · rintro rfl
      exact hstate (hk.2 row hrow)
  · exact fun r hr => hlater.reaperOk (hi.reapers r hr) fun _ _ _ href hup => ⟨href, hup⟩
  · intro j hj
    obtain ⟨hquiet, hnone, hblob⟩ := hi.removed j hj
    exact ⟨hquiet, hnone, herased j hblob⟩

theorem Inv.objectDeleted (hi : s.Inv) {r : Nat} (hlt : r < s.nextReaper) :
    (s.objectDeleted r).Inv := by
  unfold AttachmentStore.objectDeleted
  split
  · exact hi
  · rename_i d hd
    split
    · exact hi
    · have hok := hi.reapers r hlt
      obtain ⟨e, he, hkey⟩ := Option.map_eq_some_iff.mp (hok.head d hd)
      have hdoomed := (hok.queue e (List.mem_of_mem_head? he)).1
      rw [hkey] at hdoomed
      have hi' := hi.eraseBlob hdoomed
      have hok' := hi'.reapers r hlt
      refine hi'.setReaper (r := r) (f := fun x => { x with deletion := some { d with done := true } })
        ⟨hok'.claimed, hok'.queue, ?_, ?_, hok'.abandoned⟩ (hi.exclusive r hlt)
      · intro d' hd'
        cases hd'
        exact hok.head d hd
      · intro d' hd' _ e' he' _
        cases hd'
        rw [he] at he'
        cases he'
        rw [hkey]
        exact Function.update_self ..

theorem Inv.abandonedDeleted (hi : s.Inv) {r : Nat} (hlt : r < s.nextReaper) (j : Nat) :
    (s.abandonedDeleted r j).Inv := by
  unfold AttachmentStore.abandonedDeleted
  split
  · exact hi
  · rename_i d hd
    split
    · exact hi
    · have hdoomed := (hi.reapers r hlt).abandoned d (List.mem_of_getElem? hd)
      have hi' := hi.eraseBlob hdoomed
      have hok' := hi'.reapers r hlt
      refine hi'.setReaper (r := r)
        (f := fun x => { x with abandoned := x.abandoned.set j { d with done := true } })
        ⟨hok'.claimed, hok'.queue, hok'.head, hok'.erased, fun d' hd' => ?_⟩ (hi.exclusive r hlt)
      obtain hd' | rfl := List.mem_or_eq_of_mem_set hd'
      · exact hok'.abandoned d' hd'
      · exact hdoomed

theorem Inv.nextRow (hi : s.Inv) {r : Nat} (hlt : r < s.nextReaper) {abandoned : List Deletion}
    (h : ∀ d ∈ abandoned, Doomed s d.key) :
    (s.setReaper r fun x => { nextRow x with abandoned := x.abandoned ++ abandoned }).Inv := by
  have hok := hi.reapers r hlt
  refine hi.setReaper ⟨hok.claimed, fun e he => hok.queue e (List.mem_of_mem_tail he), nofun, nofun, ?_⟩
    (hi.exclusive r hlt)
  intro d hd
  obtain hd | hd := List.mem_append.mp hd
  · exact hok.abandoned d hd
  · exact h d hd

theorem Inv.nextRow_nil (hi : s.Inv) {r : Nat} (hlt : r < s.nextReaper) :
    (s.setReaper r AttachmentStore.nextRow).Inv := by
  have hok := hi.reapers r hlt
  exact hi.setReaper ⟨hok.claimed, fun e he => hok.queue e (List.mem_of_mem_tail he), nofun, nofun,
    hok.abandoned⟩ (hi.exclusive r hlt)

theorem not_ready_of_deleting {k : AttachmentKey} {row : InventoryRow} (hrow : s.inventory k = some row)
    (hstate : row.state = .deleting) : ¬ Ready s k := by
  rintro ⟨row', hrow', hready⟩
  rw [hrow] at hrow'
  cases hrow'
  rw [hstate] at hready
  cases hready

theorem Inv.setDeleting (hi : s.Inv) {k : AttachmentKey} {row : InventoryRow}
    (hrow : s.inventory k = some row) (hstate : row.state = .deleting) {n : Option InventoryRow}
    (hnext : ∀ m, n = some m → m.state = .deleting ∧ (m.writeCompleted = true →
      row.writeCompleted = true)) :
    (s.setRow k n).Inv ∧ Later s (s.setRow k n) ∧ Doomed (s.setRow k n) k := by
  refine hi.setRow (hi.rows k row hrow).seen (.inl (not_ready_of_deleting hrow hstate))
    (.inr fun row' hrow' => ?_) fun m hm => ?_
  · rw [hrow] at hrow'
    cases hrow'
    exact hstate
  · obtain ⟨hdeleting, hwritten⟩ := hnext m hm
    exact ⟨hdeleting, row, hrow, hwritten⟩

theorem Inv.deleteSucceeded (hi : s.Inv) {r : Nat} (hlt : r < s.nextReaper) (now : Int) :
    (s.deleteSucceeded r now).Inv := by
  unfold AttachmentStore.deleteSucceeded
  split
  · rename_i k completed rest d hqueue hd
    split
    · rename_i hdone
      split
      · exact hi.nextRow_nil hlt
      · rename_i row hrow
        split
        · exact hi.nextRow_nil hlt
        · rename_i hstate
          rw [not_not] at hstate
          split
          · rename_i hcompleted
            split
            · subst hcompleted
              have hok := hi.reapers r hlt
              have hhead : (s.reapers r).queue.head? = some (k, true) := by rw [hqueue]; rfl
              have hquiet := (hok.queue (k, true) (List.mem_of_mem_head? hhead)).2 rfl
              have hblob := hok.erased d hd hdone.1 (k, true) hhead rfl
              obtain ⟨hgone, -, -⟩ := hi.setDeleting (n := none) hrow hstate nofun
              obtain ⟨hrows, hwriters, hreapers, hexclusive, hretained, hinserted, hreferences, huploads,
                hremoved⟩ := hgone.nextRow_nil (r := r) hlt
              refine ⟨fun j row hj => ?_, hwriters, fun q hq => ?_, hexclusive, hretained, hinserted,
                hreferences, huploads, fun j hj => ?_⟩
              · exact (hrows j row hj).frame rfl rfl rfl
              · obtain ⟨hclaimed, hqueue, hhead, herased, habandoned⟩ := hreapers q hq
                exact ⟨hclaimed, hqueue, hhead, herased, habandoned⟩
              · obtain hj | rfl := mem_snoc.mp hj
                · exact hremoved j hj
                · exact ⟨hquiet, Function.update_self .., hblob⟩
            · exact hi.nextRow_nil hlt
          · obtain ⟨hlater, -, -⟩ := hi.setDeleting
              (n := some { row with cleanupAvailableAt := now + 60000 }) hrow hstate fun n hn => by
                cases hn
                exact ⟨hstate, id⟩
            exact hlater.nextRow_nil (r := r) hlt
    · exact hi
  · exact hi

theorem Inv.deleteFailed (hi : s.Inv) {r : Nat} (hlt : r < s.nextReaper) (now : Int) :
    (s.deleteFailed r now).Inv := by
  simp only [AttachmentStore.deleteFailed]
  split
  · rename_i k completed rest d hqueue hd
    split
    · have hok := hi.reapers r hlt
      have hhead : (s.reapers r).queue.head? = some (k, completed) := by rw [hqueue]; rfl
      have hkey : k = d.key := by
        have hkey := hok.head d hd
        rw [hhead] at hkey
        exact Option.some.inj hkey
      have hdoomed := (hok.queue _ (List.mem_of_mem_head? hhead)).1
      rw [hkey] at hdoomed
      have hgive : ∀ e ∈ [d], Doomed s e.key := by
        intro e he
        rw [List.mem_singleton.mp he]
        exact hdoomed
      split
      · exact hi.nextRow hlt hgive
      · rename_i row hrow
        split
        · exact hi.nextRow hlt hgive
        · rename_i hstate
          rw [not_not] at hstate
          have hset := hi.setDeleting (n := some
            { row with
              cleanupAvailableAt := now + 1000 * min 300 (2 ^ min row.cleanupFailures 8)
              cleanupFailures := min (row.cleanupFailures + 1) 16 }) hrow hstate fun n hn => by
                cases hn
                exact ⟨hstate, id⟩
          refine hset.1.nextRow (r := r) hlt fun e he => ?_
          exact hset.2.1.doomed _ (hgive e he)
    · exact hi
  · exact hi

/-! ### What happens elsewhere -/

theorem Inv.setUploads (hi : s.Inv) {uploads : InsertionMap Nat SessionUpload}
    (h : ∀ id u a, uploads.get id = some u → u.attachmentId = some a →
      ∃ old, s.uploads.get id = some old ∧ old.tenantId = u.tenantId ∧ old.attachmentId = some a) :
    Inv { s with uploads := uploads } := by
  refine hi.of_later ⟨fun _ => id, fun _ => id, fun _ => id, fun _ _ => id⟩ ?_ hi.writers (fun _ => id) rfl
    rfl rfl rfl rfl rfl (fun k hk => (hi.removed k hk).2.1) ?_ ?_
  · intro k row hrow
    exact (hi.rows k row hrow).frame rfl rfl rfl
  · intro id u a hget hattachment
    obtain ⟨old, hold, htenant, ha⟩ := h id u a hget hattachment
    rw [← htenant]
    exact hi.uploads id old a hold ha
  · intro k _ hfalse
    rw [uploaded_eq_false] at hfalse ⊢
    intro id u hget htenant hattachment
    obtain ⟨old, hold, htenant', ha⟩ := h id u k.id hget hattachment
    exact hfalse id old hold (htenant'.trans htenant) ha

theorem Inv.setUpload (hi : s.Inv) (id : Nat) (upload : SessionUpload) : (s.setUpload id upload).Inv := by
  unfold AttachmentStore.setUpload
  split
  · refine hi.setUploads fun j u a hget hattachment => ?_
    rw [InsertionMap.get_set] at hget
    split at hget
    · cases hget
      cases hattachment
    · exact ⟨u, hget, rfl, hattachment⟩
  · rename_i old hold
    refine hi.setUploads fun j u a hget hattachment => ?_
    rw [InsertionMap.get_set] at hget
    split at hget
    · rename_i hj
      cases hget
      exact ⟨old, hj ▸ hold, rfl, hattachment⟩
    · exact ⟨u, hget, rfl, hattachment⟩

theorem get_reapDrafts (now : Int) (ids : List Nat) (uploads : InsertionMap Nat SessionUpload) (id : Nat)
    (u : SessionUpload) (h : (ids.foldl (reapDraft now) uploads).get id = some u) :
    uploads.get id = some u := by
  induction ids generalizing uploads with
  | nil => exact h
  | cons i ids ih =>
    have hget := ih _ h
    unfold reapDraft at hget
    split at hget
    · exact InsertionMap.get_delete_some hget
    · exact hget

theorem Inv.dropReferences (hi : s.Inv) (table : ReferenceTable) (owner : Nat) :
    (s.act (.dropReferences table owner)).Inv := by
  have hsub : ∀ r ∈ (s.act (.dropReferences table owner)).references, r ∈ s.references :=
    fun r hr => (List.mem_filter.mp hr).1
  have hlater : Later s (s.act (.dropReferences table owner)) :=
    ⟨fun _ => id, fun _ => id, fun _ => id, fun _ _ => id⟩
  refine ⟨fun k row hrow => ?_, hi.writers, fun r hr => ?_, hi.exclusive, hi.retained, hi.inserted, ?_,
    hi.uploads, hi.removed⟩
  · exact (hi.rows k row hrow).frame rfl rfl rfl
  · refine hlater.reaperOk (hi.reapers r hr) fun k _ _ href hup => ⟨?_, hup⟩
    rw [← Bool.not_eq_true] at href ⊢
    intro hany
    obtain ⟨reference, hmem, hkey⟩ := List.any_eq_true.mp hany
    exact href (List.any_eq_true.mpr ⟨reference, hsub reference hmem, hkey⟩)
  · exact fun r hr => hi.references r (hsub r hr)

theorem Inv.setUnsealed (hi : s.Inv) (runs : List Nat) : Inv { s with unsealedRuns := runs } := by
  refine hi.of_later ⟨fun _ => id, fun _ => id, fun _ => id, fun _ _ => id⟩ ?_ hi.writers (fun _ => id) rfl
    rfl rfl rfl rfl rfl (fun k hk => (hi.removed k hk).2.1) hi.uploads fun _ _ => id
  intro k row hrow
  exact (hi.rows k row hrow).frame rfl rfl rfl

/-! ### Runs -/

theorem Inv.start : Inv {} := by
  refine ⟨nofun, nofun, nofun, nofun, nofun, nofun, nofun, ?_, nofun⟩
  intro id u a h
  cases h

theorem Inv.act (hi : s.Inv) (a : StoreAction) : (s.act a).Inv := by
  have writer : ∀ w (f : AttachmentStore → Nat → AttachmentStore), (w < s.nextWriter → (f s w).Inv) →
      (s.withWriter w f).Inv := by
    intro w f hf
    unfold withWriter
    split
    · rename_i hlt
      exact hf hlt
    · exact hi
  have retention : ∀ t (f : AttachmentStore → Nat → AttachmentStore),
      (t < s.nextRetention → (f s t).Inv) → (s.withRetention t f).Inv := by
    intro t f hf
    unfold withRetention
    split
    · rename_i hlt
      exact hf hlt
    · exact hi
  have reaper : ∀ r (f : AttachmentStore → Nat → AttachmentStore), (r < s.nextReaper → (f s r).Inv) →
      (s.withReaper r f).Inv := by
    intro r f hf
    unfold withReaper
    split
    · rename_i hlt
      exact hf hlt
    · exact hi
  cases a with
  | put tenantId contents runId => exact hi.createWriter rfl rfl rfl
  | putStream tenantId contents claim => exact hi.createWriter rfl rfl rfl
  | insert w now => exact writer w (fun s w => s.insert w now) fun hlt => hi.insert hlt now
  | abortBefore w => exact writer w _ fun _ => hi.abortBefore
  | transfer w => exact writer w _ hi.transfer
  | chunk w bytes => exact writer w (fun s w => s.chunk w bytes) fun _ => hi.chunk bytes
  | endOfStream w digestMatches =>
    exact writer w (fun s w => s.endOfStream w digestMatches) fun _ => hi.endOfStream digestMatches
  | objectPut w => exact writer w _ hi.objectPut
  | putSucceeded w => exact writer w _ fun _ => hi.putSucceeded
  | putFailed w => exact writer w _ fun _ => hi.putFailed
  | writeCompleted w => exact writer w _ hi.writeCompleted
  | begin tenantId => exact hi.begin tenantId
  | lockForShare t id =>
    exact retention t (fun s t => s.lockForShare t id) fun hlt => hi.lockForShare hlt id
  | retain t sessionId refs =>
    exact retention t (fun s t => s.retain t sessionId refs) fun hlt => hi.retain hlt sessionId refs
  | referHistory t table owner id =>
    exact retention t (fun s t => s.referHistory t table owner id) fun hlt =>
      hi.referHistory hlt table owner id
  | commit t => exact retention t _ hi.commit
  | rollback t =>
    exact retention t (fun s t => s.setRetention t AttachmentStore.finishRetention) fun _ =>
      hi.finishRetention t
  | reapDrafts ids now =>
    exact hi.setUploads fun id u a hget hattachment =>
      ⟨u, get_reapDrafts now (ids.take 32) s.uploads id u hget, rfl, hattachment⟩
  | reap graceMs now => exact hi.reap graceMs now
  | lockForUpdate r k => exact reaper r (fun s r => s.lockForUpdate r k) fun hlt => hi.lockForUpdate hlt k
  | claim r => exact reaper r _ hi.claim
  | commitReap r => exact reaper r _ hi.commitReap
  | rollbackReap r => exact reaper r _ hi.rollbackReap
  | deleteObject r => exact reaper r _ hi.deleteObject
  | objectDeleted r => exact reaper r _ hi.objectDeleted
  | abandonedDeleted r j =>
    exact reaper r (fun s r => s.abandonedDeleted r j) fun hlt => hi.abandonedDeleted hlt j
  | deleteSucceeded r now =>
    exact reaper r (fun s r => s.deleteSucceeded r now) fun hlt => hi.deleteSucceeded hlt now
  | deleteFailed r now =>
    exact reaper r (fun s r => s.deleteFailed r now) fun hlt => hi.deleteFailed hlt now
  | setUpload id upload => exact hi.setUpload id upload
  | setUnsealed runs => exact hi.setUnsealed runs
  | dropReferences table owner => exact hi.dropReferences table owner

theorem Inv.run (hi : s.Inv) (actions : List StoreAction) : (s.run actions).Inv := by
  unfold AttachmentStore.run
  induction actions generalizing s with
  | nil => exact hi
  | cons a actions ih => exact ih (hi.act a)

/-- An upload under `k` that can still create an object. -/
def InFlight (s : AttachmentStore) (k : AttachmentKey) : Prop :=
  ∃ w < s.nextWriter, s.key w = k ∧ Writer.MayCreate (s.writers w)

end AttachmentStore

open AttachmentStore in
/-- In every run: a row with a committed reference is ready, with its object; a row that an upload has is
not deleting; and a row was removed only when nothing was or can come under its key. -/
theorem referenced_never_collected (actions : List StoreAction) :
    let s := ({} : AttachmentStore).run actions
    (∀ k, s.referenced k = true → ∃ row, s.inventory k = some row ∧ row.state = .ready ∧
        s.blobs k = true) ∧
      (∀ k, s.uploaded k = true → ∃ row, s.inventory k = some row ∧ row.state ≠ .deleting) ∧
      ∀ k ∈ s.removed, s.inventory k = none ∧ s.blobs k = false ∧ ¬ s.InFlight k := by
  intro s
  have hi : s.Inv := Inv.start.run actions
  refine ⟨fun k hk => ?_, fun k hk => ?_, fun k hk => ?_⟩
  · obtain ⟨r, hr, hkey⟩ := List.any_eq_true.mp hk
    obtain ⟨row, hrow, hstate⟩ := hi.references r hr
    rw [of_decide_eq_true hkey] at hrow
    have hok := hi.rows k row hrow
    refine ⟨row, hrow, hstate, hok.present ?_ (hok.ready hstate)⟩
    rw [hstate]
    nofun
  · obtain ⟨⟨id, u⟩, he, hboth⟩ := List.any_eq_true.mp hk
    simp only [Bool.and_eq_true, decide_eq_true_eq] at hboth
    have hrow := hi.uploads id u k.id (InsertionMap.mem_entries.mp he) hboth.2
    rw [hboth.1] at hrow
    exact hrow
  · obtain ⟨hquiet, hnone, hblob⟩ := hi.removed k hk
    refine ⟨hnone, hblob, ?_⟩
    rintro ⟨w, _, rfl, hmay⟩
    exact hquiet.2.2 hmay

/-- An upload is retained, and two reapings follow: one while it has its reference, one after. -/
def retainedUpload : List StoreAction :=
  [.put 1 { sha256 := 7, byteLength := 3, mimeType := 0 } none, .insert 0 0, .transfer 0, .objectPut 0,
    .putSucceeded 0, .writeCompleted 0, .begin 1, .lockForShare 0 0,
    .retain 0 5 [(0, { sha256 := 7, byteLength := 3, mimeType := 0 })], .commit 0, .reap 0 1,
    .lockForUpdate 0 { tenantId := 1, id := 0 }, .claim 0, .commitReap 0]

def releasedUpload : List StoreAction :=
  retainedUpload ++
    [StoreAction.dropReferences .session 5, .reap 0 2, .lockForUpdate 1 { tenantId := 1, id := 0 }, .claim 1,
      .commitReap 1, .deleteObject 1, .objectDeleted 1, .deleteSucceeded 1 2]

theorem released_upload_removed :
    (∃ row, (({} : AttachmentStore).run retainedUpload).inventory { tenantId := 1, id := 0 } = some row ∧
        row.state = .ready ∧
        (({} : AttachmentStore).run retainedUpload).blobs { tenantId := 1, id := 0 } = true) ∧
      ¬ (({} : AttachmentStore).run releasedUpload).InFlight { tenantId := 1, id := 0 } :=
  ⟨(referenced_never_collected retainedUpload).1 { tenantId := 1, id := 0 } (by decide),
    ((referenced_never_collected releasedUpload).2.2 { tenantId := 1, id := 0 } (by decide)).2.2⟩

end Inventory
end Attachments
end PiCloud
