import PiCloud.Workspace.FileTransfer

/-!
# Workspace.TransferSafety

What an upload promises at every point of every run.

* `Safe`, `Publishes`: what holds of the state, and what a step may do to the destination.
* `Orderly`: the condition on the state before a step. A cancel must not meet a body that is linked
  and not marked as ready, and a create must not meet a reaped receipt.
* `Point.Holds`, `Inv`: what a request has established at each of its points, and the invariant.
* `transfer_safe`: every run whose steps are orderly is safe.
* `cancel_after_link`: a cancel after a crash between link and ready mark is not.
-/

namespace PiCloud
namespace Workspace

open Lib

/-! ## What is promised -/

def Complete {δ : Type} (u : Upload δ) (f : Stored) : Prop :=
  f.data.length = u.byteLength ∧ u.digest f.data = u.sha256

def Reported (a : AnswerState) (answers : List Answer) : Prop := ∃ x ∈ answers, x.state = a

structure Safe {δ : Type} (u : Upload δ) (s : State) : Prop where
  /-- what the upload has put at the destination is complete -/
  complete : ∀ i ∈ s.linked, Complete u (s.files i)
  /-- after `ready` every answer is `ready` -/
  ready : s.answers.Pairwise fun later earlier => earlier.state = .ready → later.state = .ready
  /-- after `cancelled` nothing was put at the destination -/
  cancelled : Reported .cancelled s.answers → s.linked = []
  /-- the offset of `uploading` is on the disk -/
  stored : ∀ a ∈ s.answers, a.state = .uploading → a.offset ≤ a.stored

/-- The destination changes by the user, or from nothing to a complete body. -/
def Publishes {δ : Type} (u : Upload δ) (s : State) (op : Op) (s' : State) : Prop :=
  ∀ p, s'.target p ≠ s.target p →
    (∃ data, op = .place p data) ∨ op = .remove p ∨
      (s.target p = none ∧ ∃ i ∈ s'.linked, s'.target p = some i ∧ Complete u (s'.files i))

/-- A request that reads the metadata: as a cancel it finds a linked body marked as ready, and as a
create it finds the receipt of an upload that was reported as ready. -/
def Orderly (s : State) (op : Op) : Prop :=
  op = .proceed → ∀ c ∈ s.critical, c.point = .readMetadata →
    (c.request.action = .cancel → s.linked ≠ [] → ∃ m ∈ s.metadata, m.state = .ready) ∧
      (c.request.action = .create → Reported .ready s.answers → s.metadata ≠ none)

instance (a : AnswerState) (answers : List Answer) : Decidable (Reported a answers) :=
  inferInstanceAs (Decidable (∃ x ∈ answers, x.state = a))

instance (s : State) (op : Op) : Decidable (Orderly s op) :=
  inferInstanceAs (Decidable (op = .proceed → ∀ c ∈ s.critical, c.point = .readMetadata →
    (c.request.action = .cancel → s.linked ≠ [] → ∃ m ∈ s.metadata, m.state = .ready) ∧
      (c.request.action = .create → Reported .ready s.answers → s.metadata ≠ none)))

/-! ## The invariant -/

/-- Requests other than a cancel have expired by `t`, and no more of them are admitted. -/
def Revoked (rowState : RowState) (admitted : List Request) (t : Nat) : Prop :=
  rowState ≠ .uploading ∧ ∀ r ∈ admitted, r.action ≠ .cancel → r.expiresAt ≤ t

/-- Neither `ready` nor `cancelled` was answered. -/
def Quiet (answers : List Answer) : Prop :=
  ¬ Reported .ready answers ∧ ¬ Reported .cancelled answers

structure Admission {δ : Type} (u : Upload δ) (rowState : RowState) (rowExpiresAt now : Nat)
    (admitted waiting : List Request) : Prop where
  row : rowExpiresAt ≤ now + transferTtl
  horizon : ∀ r ∈ admitted, r.action ≠ .cancel → r.expiresAt ≤ now + transferTtl
  revoked : ∀ r ∈ admitted, r.action = .cancel → rowState ≠ .uploading
  valid : ∀ r ∈ admitted, r.valid u = true
  waiting : ∀ r ∈ waiting, r ∈ admitted

def Kept {δ : Type} (u : Upload δ) (f : Stored) : Prop :=
  f.staged = true ∧ Complete u f ∧ f.synced = f.data.length

structure Files {δ : Type} (u : Upload δ) (body : Option Nat) (metadata : Option Metadata)
    (target : Nat → Option Nat) (files : Nat → Stored) (nextInode : Nat) (linked : List Nat) :
    Prop where
  bound : ∀ i, (files i).staged = true → i < nextInode
  inUse : ∀ p i, target p = some i → i < nextInode
  owned : ∀ p i, target p = some i → (files i).staged = true → i ∈ linked
  staged : ∀ i, body = some i → (files i).staged = true
  kept : ∀ i ∈ linked, Kept u (files i)
  inode : ∀ m, metadata = some m → ∀ i, m.inode = some i → (files i).staged = true

/-- What the metadata and the answers say of the destination. -/
structure Marks (rowState : RowState) (admitted : List Request) (now : Nat)
    (metadata : Option Metadata) (linked : List Nat) (answers : List Answer) : Prop where
  ready : ∀ m, metadata = some m → m.state = .ready → linked ≠ []
  tombstone : ∀ m, metadata = some m → m.state = .cancelled →
    linked = [] ∧ Revoked rowState admitted m.expiresAt
  reportedReady : Reported .ready answers →
    linked ≠ [] ∧ ∀ m, metadata = some m → m.state = .ready
  reportedCancelled : Reported .cancelled answers →
    linked = [] ∧ (∀ m, metadata = some m → m.state = .cancelled) ∧
      (metadata = none → Revoked rowState admitted now)

structure History (answers : List Answer) : Prop where
  order : answers.Pairwise fun later earlier => earlier.state = .ready → later.state = .ready
  stored : ∀ a ∈ answers, a.state = .uploading → a.offset ≤ a.stored

def Staged (s : State) (m : Metadata) : Prop :=
  ∀ i, m.inode = some i → (s.files i).staged = true

/-- What a request has established at a point. -/
def Point.Holds {δ : Type} (u : Upload δ) (s : State) (action : Action) : Point → Prop
  | .readMetadata => True
  | .saveTombstone m => m.state = .cancelled ∧ m.inode = none ∧ s.linked = [] ∧
      ¬ Reported .ready s.answers ∧ Revoked s.rowState s.admitted m.expiresAt
  | .removeBody => s.linked = [] ∧ ¬ Reported .ready s.answers ∧
      ∃ m, s.metadata = some m ∧ m.state = .cancelled
  | .saveCreated m | .saveRenewed m | .openBody m =>
      Quiet s.answers ∧ (m.state = .uploading ∨ m.state = .publishing) ∧ Staged s m
  | .receive m start received => Quiet s.answers ∧ m.state = .uploading ∧ Staged s m ∧
      ∃ i chunkLength, s.body = some i ∧ action = .append start chunkLength ∧
        start + chunkLength ≤ u.byteLength ∧ (s.files i).data.length = start + received ∧
        received ≤ chunkLength
  | .syncBody m size => Quiet s.answers ∧ (m.state = .uploading ∨ m.state = .publishing) ∧
      Staged s m ∧ ∃ i, s.body = some i ∧ (s.files i).data.length = size
  | .savePublishing m => Quiet s.answers ∧ m.state = .publishing ∧ Staged s m ∧
      ∃ i, s.body = some i ∧ Kept u (s.files i)
  | .link m => Quiet s.answers ∧ m.state = .publishing ∧ Staged s m ∧ s.metadata = some m ∧
      ∃ i, s.body = some i ∧ Kept u (s.files i)
  | .saveFailed m => Quiet s.answers ∧ m.state = .failed ∧ Staged s m
  | .saveReady m => Quiet s.answers ∧ m.state = .ready ∧ Staged s m ∧ s.linked ≠ []
  | .removePublished => Quiet s.answers ∧ s.linked ≠ [] ∧
      ∃ m, s.metadata = some m ∧ m.state = .ready

/-- The invariant, the request with the lock apart. -/
structure Core {δ : Type} (u : Upload δ) (s : State) : Prop where
  admission : Admission u s.rowState s.rowExpiresAt s.now s.admitted s.waiting
  files : Files u s.body s.metadata s.target s.files s.nextInode s.linked
  marks : Marks s.rowState s.admitted s.now s.metadata s.linked s.answers
  history : History s.answers

structure Inv {δ : Type} (u : Upload δ) (s : State) : Prop extends Core u s where
  critical : ∀ c, s.critical = some c →
    c.request ∈ s.admitted ∧ c.point.Holds u s c.request.action
  reaping : s.reaping = true →
    s.waiting = [] ∧ s.critical = none ∧ ∀ m, s.metadata = some m → m.expiresAt ≤ s.now

theorem Revoked.mono {rowState : RowState} {admitted : List Request} {t t' : Nat}
    (h : Revoked rowState admitted t) (hle : t ≤ t') : Revoked rowState admitted t' :=
  ⟨h.1, fun r hr hne => Nat.le_trans (h.2 r hr hne) hle⟩

theorem Marks.revoke {rowState rowState' : RowState} {admitted admitted' : List Request} {now : Nat}
    {metadata : Option Metadata} {linked : List Nat} {answers : List Answer}
    (h : Marks rowState admitted now metadata linked answers)
    (hrevoked : ∀ t, Revoked rowState admitted t → Revoked rowState' admitted' t) :
    Marks rowState' admitted' now metadata linked answers where
  ready := h.ready
  tombstone m hm hc := (h.tombstone m hm hc).imp_right (hrevoked _)
  reportedReady := h.reportedReady
  reportedCancelled hrep :=
    (h.reportedCancelled hrep).imp_right (.imp_right fun hrev hnone => hrevoked _ (hrev hnone))

theorem Reported.cons {a : AnswerState} {x : Answer} {answers : List Answer}
    (h : Reported a (x :: answers)) : x.state = a ∨ Reported a answers := by
  obtain ⟨y, hy, heq⟩ := h
  obtain rfl | hy := List.mem_cons.mp hy
  · exact .inl heq
  · exact .inr ⟨y, hy, heq⟩

theorem Marks.quiet {rowState : RowState} {admitted : List Request} {now : Nat} {m : Metadata}
    {linked : List Nat} {answers : List Answer} (hq : Quiet answers)
    (hready : m.state = .ready → linked ≠ []) (hc : m.state ≠ .cancelled) :
    Marks rowState admitted now (some m) linked answers where
  ready := by
    rintro _ ⟨⟩ hm
    exact hready hm
  tombstone := by
    rintro _ ⟨⟩ hm
    exact absurd hm hc
  reportedReady hr := absurd hr hq.1
  reportedCancelled hr := absurd hr hq.2

section Proceed

variable {δ : Type} {u : Upload δ} {s : State} {c : Critical} {m : Metadata}

theorem Core.leave (h : Core u s) (hr : s.reaping = false) : Inv u s.leave where
  admission := h.admission
  files := h.files
  marks := h.marks
  history := h.history
  critical := by
    rintro _ ⟨⟩
  reaping hreap := by
    rw [show s.leave.reaping = s.reaping from rfl, hr] at hreap
    cases hreap

theorem Core.goto (h : Core u s) (hr : s.reaping = false) (hc : c.request ∈ s.admitted) {p : Point}
    (hp : p.Holds u s c.request.action) : Inv u (s.goto c p) where
  admission := h.admission
  files := h.files
  marks := h.marks
  history := h.history
  critical := by
    rintro _ ⟨⟩
    refine ⟨hc, ?_⟩
    cases p <;> exact hp
  reaping hreap := by
    rw [show (s.goto c p).reaping = s.reaping from rfl, hr] at hreap
    cases hreap

/-- `ready` is answered when the metadata says so. -/
theorem Core.replyReady (h : Core u s) (hr : s.reaping = false) (hm : s.metadata = some m)
    (hready : m.state = .ready) : Inv u (s.reply .ready u.byteLength) where
  admission := h.admission
  files := h.files
  marks :=
    { h.marks with
      reportedReady := by
        intro _
        refine ⟨h.marks.ready m hm hready, fun m' hm' => ?_⟩
        cases hm.symm.trans hm'
        exact hready
      reportedCancelled := by
        intro hrep
        obtain heq | hrep := hrep.cons
        · cases heq
        · exact h.marks.reportedCancelled hrep }
  history :=
    { order := List.pairwise_cons.mpr ⟨fun _ _ _ => rfl, h.history.order⟩
      stored := by
        intro a ha hup
        obtain rfl | ha := List.mem_cons.mp ha
        · cases hup
        · exact h.history.stored a ha hup }
  critical := by
    rintro _ ⟨⟩
  reaping hreap := by
    rw [show (s.reply .ready u.byteLength).reaping = s.reaping from rfl, hr] at hreap
    cases hreap

/-- `uploading` is answered when nothing else was, with an offset on the disk. -/
theorem Core.replyUploading (h : Core u s) (hr : s.reaping = false) (hq : Quiet s.answers)
    {offset : Nat} (ho : offset ≤ s.bodyStored) : Inv u (s.reply .uploading offset) where
  admission := h.admission
  files := h.files
  marks :=
    { h.marks with
      reportedReady := by
        intro hrep
        obtain heq | hrep := hrep.cons
        · cases heq
        · exact absurd hrep hq.1
      reportedCancelled := by
        intro hrep
        obtain heq | hrep := hrep.cons
        · cases heq
        · exact absurd hrep hq.2 }
  history :=
    { order := List.pairwise_cons.mpr
        ⟨fun a ha heq => absurd ⟨a, ha, heq⟩ hq.1, h.history.order⟩
      stored := by
        intro a ha hup
        obtain rfl | ha := List.mem_cons.mp ha
        · exact ho
        · exact h.history.stored a ha hup }
  critical := by
    rintro _ ⟨⟩
  reaping hreap := by
    rw [show (s.reply .uploading offset).reaping = s.reaping from rfl, hr] at hreap
    cases hreap

/-- `cancelled` is answered over a tombstone, and no body was linked. -/
theorem Core.replyCancelled (h : Core u s) (hr : s.reaping = false) (hl : s.linked = [])
    (hq : ¬ Reported .ready s.answers) (hm : s.metadata = some m) (hc : m.state = .cancelled) :
    Inv u (s.reply .cancelled 0) where
  admission := h.admission
  files := h.files
  marks :=
    { h.marks with
      reportedReady := by
        intro hrep
        obtain heq | hrep := hrep.cons
        · cases heq
        · exact absurd hrep hq
      reportedCancelled := by
        intro _
        refine ⟨hl, fun m' hm' => ?_, fun hnone => ?_⟩
        · cases hm.symm.trans hm'
          exact hc
        · cases hm.symm.trans hnone }
  history :=
    { order := List.pairwise_cons.mpr
        ⟨fun a ha heq => absurd ⟨a, ha, heq⟩ hq, h.history.order⟩
      stored := by
        intro a ha hup
        obtain rfl | ha := List.mem_cons.mp ha
        · cases hup
        · exact h.history.stored a ha hup }
  critical := by
    rintro _ ⟨⟩
  reaping hreap := by
    rw [show (s.reply .cancelled 0).reaping = s.reaping from rfl, hr] at hreap
    cases hreap

/-! ### Small changes of the core -/

theorem Core.removeBody (h : Core u s) : Core u { s with body := none } where
  admission := h.admission
  files := { h.files with staged := nofun }
  marks := h.marks
  history := h.history

theorem Core.writeMetadata (h : Core u s) (hq : Quiet s.answers) (hs : Staged s m)
    (hready : m.state = .ready → s.linked ≠ []) (hc : m.state ≠ .cancelled) :
    Core u (s.writeMetadata m) where
  admission := h.admission
  files :=
    { h.files with
      inode := by
        rintro _ ⟨⟩ i hi
        exact hs i hi }
  marks := .quiet hq hready hc
  history := h.history

theorem Core.writeActive (h : Core u s) (hq : Quiet s.answers)
    (hactive : m.state = .uploading ∨ m.state = .publishing) (hs : Staged s m) :
    Core u (s.writeMetadata m) := by
  refine h.writeMetadata hq hs (fun hready => ?_) fun hc => ?_
  · rw [hready] at hactive
    rcases hactive with h | h <;> cases h
  · rw [hc] at hactive
    rcases hactive with h | h <;> cases h

theorem Core.writeTombstone (h : Core u s) (hc : m.state = .cancelled) (hi : m.inode = none)
    (hl : s.linked = []) (hq : ¬ Reported .ready s.answers)
    (hr : Revoked s.rowState s.admitted m.expiresAt) : Core u (s.writeMetadata m) where
  admission := h.admission
  files :=
    { h.files with
      inode := by
        rintro _ ⟨⟩ i heq
        cases hi.symm.trans heq }
  marks :=
    { ready := by
        rintro _ ⟨⟩ hready
        cases hc.symm.trans hready
      tombstone := by
        rintro _ ⟨⟩ _
        exact ⟨hl, hr⟩
      reportedReady := fun hrep => absurd hrep hq
      reportedCancelled := by
        intro _
        refine ⟨hl, ?_, nofun⟩
        rintro _ ⟨⟩
        exact hc }
  history := h.history

theorem files_setFile (i j : Nat) (f : Stored) :
    (s.setFile i f).files j = if j = i then f else s.files j :=
  Function.update_apply s.files i f j

theorem files_setFile_self (i : Nat) (f : Stored) : (s.setFile i f).files i = f :=
  Function.update_self ..

theorem Core.setFile (h : Core u s) {i : Nat} {f : Stored} (hs : f.staged = (s.files i).staged)
    (hk : i ∈ s.linked → Kept u f) : Core u (s.setFile i f) where
  admission := h.admission
  files := by
    have hstaged : ∀ j, ((s.setFile i f).files j).staged = (s.files j).staged := by
      intro j
      rw [files_setFile]
      split
      · rename_i heq
        rw [hs, heq]
      · rfl
    exact
      { bound := fun j hj => h.files.bound j ((hstaged j).symm.trans hj)
        inUse := h.files.inUse
        owned := fun p j hj hst => h.files.owned p j hj ((hstaged j).symm.trans hst)
        staged := fun j hj => (hstaged j).trans (h.files.staged j hj)
        kept := by
          intro j hj
          show Kept u ((s.setFile i f).files j)
          rw [files_setFile]
          split
          · rename_i heq
            exact hk (heq ▸ hj)
          · exact h.files.kept j hj
        inode := fun m hm j hj => (hstaged j).trans (h.files.inode m hm j hj) }
  marks := h.marks
  history := h.history

theorem Kept.sync {f : Stored} (h : Kept u f) : Kept u f.sync := ⟨h.1, h.2.1, rfl⟩

theorem Core.syncFile (h : Core u s) (i : Nat) : Core u (s.setFile i (s.files i).sync) :=
  h.setFile rfl fun hi => (h.files.kept i hi).sync

theorem Core.createBody (h : Core u s) : Core u s.createBody where
  admission := h.admission
  files := by
    have hother : ∀ j, j < s.nextInode → s.createBody.files j = s.files j := by
      intro j hj
      exact (files_setFile ..).trans (if_neg (by omega))
    have hnext : s.createBody.nextInode = s.nextInode + 1 := rfl
    exact
      { bound := by
          intro j hj
          rw [hnext]
          by_cases hlt : j < s.nextInode
          · omega
          by_cases hnew : j = s.nextInode
          · omega
          · have hsame : s.createBody.files j = s.files j := (files_setFile ..).trans (if_neg hnew)
            rw [hsame] at hj
            exact absurd (h.files.bound j hj) hlt
        inUse := fun p j hj => Nat.lt_succ_of_lt (h.files.inUse p j hj)
        owned := by
          intro p j hj hst
          rw [hother j (h.files.inUse p j hj)] at hst
          exact h.files.owned p j hj hst
        staged := by
          rintro _ ⟨⟩
          exact congrArg Stored.staged (files_setFile_self ..)
        kept := by
          intro j hj
          have hk := h.files.kept j hj
          rwa [← hother j (h.files.bound j hk.1)] at hk
        inode := by
          intro m hm j hj
          have hst := h.files.inode m hm j hj
          rwa [← hother j (h.files.bound j hst)] at hst }
  marks := h.marks
  history := h.history

theorem target_putLink (p q i : Nat) :
    (s.putLink p i).target q = if q = p then some i else s.target q :=
  Function.update_apply ..

theorem Core.putLink (h : Core u s) {i p : Nat} (hk : Kept u (s.files i)) (hq : Quiet s.answers)
    (hm : s.metadata = some m) (hp : m.state = .publishing) : Core u (s.putLink p i) where
  admission := h.admission
  files :=
    { h.files with
      inUse := by
        intro q j hj
        rw [target_putLink] at hj
        split at hj
        · cases hj
          exact h.files.bound i hk.1
        · exact h.files.inUse q j hj
      owned := by
        intro q j hj hst
        rw [target_putLink] at hj
        split at hj
        · cases hj
          exact List.mem_cons_self
        · exact List.mem_cons_of_mem _ (h.files.owned q j hj hst)
      kept := by
        intro j hj
        obtain rfl | hj := List.mem_cons.mp hj
        · exact hk
        · exact h.files.kept j hj }
  marks := by
    show Marks s.rowState s.admitted s.now s.metadata (i :: s.linked) s.answers
    rw [hm]
    refine .quiet hq (fun hready => ?_) (fun hc => ?_)
    · cases hp.symm.trans hready
    · cases hp.symm.trans hc
  history := h.history

/-! ### The points of a request -/

theorem Inv.not_reaping (h : Inv u s) (hc : s.critical = some c) : s.reaping = false := by
  cases hr : s.reaping with
  | false => rfl
  | true =>
    obtain ⟨-, hnone, -⟩ := h.reaping hr
    cases hc.symm.trans hnone

theorem decideCancel_inv (h : Inv u s) (hc : s.critical = some c)
    (ha : c.request.action = .cancel)
    (ho : s.linked ≠ [] → ∃ m, s.metadata = some m ∧ m.state = .ready) :
    Inv u (s.decideCancel u c) := by
  have hr := h.not_reaping hc
  obtain ⟨hreq, -⟩ := h.critical c hc
  unfold State.decideCancel
  split
  · rename_i hstate
    obtain ⟨m, hm, hcancelled⟩ := Option.map_eq_some_iff.mp hstate
    obtain ⟨hl, -⟩ := h.marks.tombstone m hm hcancelled
    exact h.goto hr hreq ⟨hl, fun hrep => (h.marks.reportedReady hrep).1 hl, m, hm, hcancelled⟩
  · rename_i hstate
    obtain ⟨m, hm, hready⟩ := Option.map_eq_some_iff.mp hstate
    exact h.replyReady hr hm hready
  · rename_i hnot
    -- no tombstone and no ready mark: nothing was linked
    have hl : s.linked = [] := by
      by_contra hne
      obtain ⟨m, hm, hready⟩ := ho hne
      exact hnot (by rw [hm, Option.map_some, hready])
    refine h.goto hr hreq ⟨rfl, rfl, hl, fun hrep => (h.marks.reportedReady hrep).1 hl, ?_⟩
    refine ⟨h.admission.revoked _ hreq ha, fun r hmem hne => ?_⟩
    have := h.admission.horizon r hmem hne
    unfold State.tombstone
    dsimp only
    omega

theorem decideWork_inv (h : Inv u s) (hc : s.critical = some c)
    (ha : c.request.action ≠ .cancel)
    (ho : c.request.action = .create → Reported .ready s.answers → s.metadata ≠ none) :
    Inv u (s.decideWork u c) := by
  have hr := h.not_reaping hc
  obtain ⟨hreq, -⟩ := h.critical c hc
  unfold State.decideWork
  split
  · rename_i hnone
    split
    · exact h.leave hr
    rename_i hlive
    split
    · rename_i hcreate
      have hq : Quiet s.answers := by
        refine ⟨fun hrep => ho hcreate hrep hnone, fun hrep => ?_⟩
        obtain ⟨-, -, hrevoked⟩ := h.marks.reportedCancelled hrep
        exact hlive ((hrevoked hnone).2 _ hreq ha)
      exact h.goto (c := { c with parent := s.parent }) hr hreq ⟨hq, .inl rfl, nofun⟩
    · exact h.leave hr
  · rename_i m hm
    split
    · exact h.leave hr
    rename_i hopen
    split
    · exact h.leave hr
    split
    · rename_i hready
      exact h.replyReady hr hm hready
    rename_i hready
    have hq : Quiet s.answers :=
      ⟨fun hrep => hready ((h.marks.reportedReady hrep).2 m hm),
        fun hrep => hopen (.inl ((h.marks.reportedCancelled hrep).2.1 m hm))⟩
    have hactive : m.state = .uploading ∨ m.state = .publishing := by
      cases hstate : m.state with
      | uploading => exact .inl rfl
      | publishing => exact .inr rfl
      | ready => exact absurd hstate hready
      | cancelled => exact absurd (.inl hstate) hopen
      | failed => exact absurd (.inr hstate) hopen
    have hstaged : Staged s m := h.files.inode m hm
    split
    · exact h.leave hr
    split
    · exact h.goto (c := { c with parent := s.parent }) hr hreq ⟨hq, hactive, hstaged⟩
    · exact h.goto (c := { c with parent := s.parent }) hr hreq ⟨hq, hactive, hstaged⟩

theorem checkBody_inv (h : Core u s) (hr : s.reaping = false) (hreq : c.request ∈ s.admitted)
    (hq : Quiet s.answers) (hactive : m.state = .uploading ∨ m.state = .publishing)
    (hs : Staged s m) {i : Nat} (hb : s.body = some i) :
    Inv u (s.checkBody u c m (s.files i).data.length) := by
  unfold State.checkBody
  split
  · exact h.leave hr
  split
  · rename_i offset chunkLength haction
    split
    · exact h.leave hr
    rename_i hfits
    obtain ⟨hup, hoffset⟩ := not_or.mp hfits
    rw [Decidable.not_not] at hup hoffset
    subst hoffset
    have hvalid := h.admission.valid _ hreq
    unfold Request.valid at hvalid
    rw [haction] at hvalid
    simp only [Bool.and_eq_true, decide_eq_true_eq] at hvalid
    exact h.goto hr hreq ⟨hq, hup, hs, i, chunkLength, hb, haction, hvalid.2, rfl, Nat.zero_le _⟩
  · exact h.goto hr hreq ⟨hq, hactive, hs, i, hb, rfl⟩

theorem openBody_inv (h : Inv u s) (hc : s.critical = some c)
    (hp : Point.Holds u s c.request.action (.openBody m)) : Inv u (s.openBody u c m) := by
  have hr := h.not_reaping hc
  obtain ⟨hreq, -⟩ := h.critical c hc
  obtain ⟨hq, hactive, hs⟩ := hp
  unfold State.openBody
  split
  · rename_i i hb
    exact checkBody_inv h.toCore hr hreq hq hactive hs hb
  · split
    · have hcore := h.toCore.createBody
      have hsize : (s.createBody.files s.nextInode).data.length = 0 :=
        congrArg (·.data.length) (files_setFile_self ..)
      have hs' : Staged s.createBody m := by
        intro j hj
        have hst := hs j hj
        have hlt := h.files.bound j hst
        have hsame : s.createBody.files j = s.files j :=
          (files_setFile ..).trans (if_neg (by omega))
        rwa [hsame]
      rw [← hsize]
      exact checkBody_inv hcore hr hreq hq hactive hs' rfl
    · exact h.leave hr

theorem link_inv (h : Inv u s) (hc : s.critical = some c) {i : Nat}
    (hp : Point.Holds u s c.request.action (.link m)) (hb : s.body = some i) :
    Inv u (s.link c m i) := by
  have hr := h.not_reaping hc
  obtain ⟨hreq, -⟩ := h.critical c hc
  obtain ⟨hq, hpub, hs, hm, j, hj, hk⟩ := hp
  cases hb.symm.trans hj
  unfold State.link
  split
  · exact h.goto hr hreq ⟨hq, rfl, hs⟩
  · exact (h.toCore.putLink hk hq hm hpub).goto hr hreq ⟨hq, rfl, hs, List.cons_ne_nil _ _⟩

variable [DecidableEq δ]

theorem syncBody_inv (h : Inv u s) (hc : s.critical = some c) {size i : Nat}
    (hp : Point.Holds u s c.request.action (.syncBody m size)) (hb : s.body = some i) :
    Inv u (s.syncBody u c m size i) := by
  have hr := h.not_reaping hc
  obtain ⟨hreq, -⟩ := h.critical c hc
  obtain ⟨hq, hactive, hs, j, hj, hsize⟩ := hp
  cases hb.symm.trans hj
  have hcore := h.toCore.syncFile i
  have hfile : (s.setFile i (s.files i).sync).files i = (s.files i).sync := files_setFile_self ..
  have hs' : Staged (s.setFile i (s.files i).sync) m := by
    intro j hj
    rw [files_setFile]
    split
    · exact h.files.staged i hb
    · exact hs j hj
  unfold State.syncBody
  dsimp only
  split
  · refine hcore.replyUploading hr hq ?_
    unfold State.bodyStored
    rw [show (s.setFile i (s.files i).sync).body = some i from hb, Option.elim_some, hfile]
    exact Nat.le_of_eq hsize.symm
  rename_i hfull
  rw [Decidable.not_not] at hfull
  unfold State.verify
  split
  · split
    · -- the file at the destination is the body of the metadata, which only `link` puts there
      rename_i hpub htarget
      obtain ⟨j, hj⟩ := Option.isSome_iff_exists.mp htarget.1
      have hinode : m.inode = some j := htarget.2.symm.trans hj
      have hmem := hcore.files.owned _ j hj (hs' j hinode)
      exact hcore.goto hr hreq ⟨hq, rfl, hs', List.ne_nil_of_mem hmem⟩
    · exact hcore.leave hr
  · split
    · rename_i hdigest
      rw [hfile] at hdigest
      have hkept : Kept u ((s.setFile i (s.files i).sync).files i) := by
        rw [hfile]
        exact ⟨h.files.staged i hb, ⟨hsize.trans hfull, hdigest⟩, rfl⟩
      refine hcore.goto hr hreq ⟨hq, rfl, ?_, i, hb, hkept⟩
      rintro _ ⟨⟩
      exact hkept.1
    · exact hcore.goto hr hreq ⟨hq, rfl, hs'⟩

theorem proceed_inv (h : Inv u s) (ho : Orderly s .proceed) {s' : State}
    (hs : s.proceed u = some s') : Inv u s' := by
  obtain ⟨c, hc, hs⟩ := Option.bind_eq_some_iff.mp hs
  have hr := h.not_reaping hc
  obtain ⟨hreq, hp⟩ := h.critical c hc
  cases hpoint : c.point with
  | readMetadata =>
    rw [hpoint] at hs
    cases hs
    obtain ⟨hcancel, hcreate⟩ := ho rfl c hc hpoint
    split
    · rename_i ha
      exact decideCancel_inv h hc ha (hcancel ha)
    · rename_i ha
      exact decideWork_inv h hc ha hcreate
  | saveTombstone m =>
    rw [hpoint] at hs hp
    cases hs
    obtain ⟨hstate, hi, hl, hq, hrev⟩ := hp
    exact (h.toCore.writeTombstone hstate hi hl hq hrev).goto hr hreq ⟨hl, hq, m, rfl, hstate⟩
  | removeBody =>
    rw [hpoint] at hs hp
    cases hs
    obtain ⟨hl, hq, m, hm, hstate⟩ := hp
    exact h.toCore.removeBody.replyCancelled hr hl hq hm hstate
  | saveCreated m =>
    rw [hpoint] at hs hp
    cases hs
    obtain ⟨hq, hactive, hst⟩ := hp
    exact (h.toCore.writeActive hq hactive hst).goto hr hreq ⟨hq, hactive, hst⟩
  | saveRenewed m =>
    rw [hpoint] at hs hp
    cases hs
    obtain ⟨hq, hactive, hst⟩ := hp
    exact (h.toCore.writeActive hq hactive hst).goto hr hreq ⟨hq, hactive, hst⟩
  | openBody m =>
    rw [hpoint] at hs hp
    cases hs
    exact openBody_inv h hc hp
  | receive m start received =>
    rw [hpoint] at hs
    cases hs
  | syncBody m size =>
    rw [hpoint] at hs hp
    obtain ⟨i, hb, rfl⟩ := Option.map_eq_some_iff.mp hs
    exact syncBody_inv h hc hp hb
  | savePublishing m =>
    rw [hpoint] at hs hp
    cases hs
    obtain ⟨hq, hpub, hst, hbody⟩ := hp
    have hcore := h.toCore.writeMetadata hq hst (by rw [hpub]; nofun) (by rw [hpub]; nofun)
    exact hcore.goto hr hreq ⟨hq, hpub, hst, rfl, hbody⟩
  | link m =>
    rw [hpoint] at hs hp
    obtain ⟨i, hb, rfl⟩ := Option.map_eq_some_iff.mp hs
    exact link_inv h hc hp hb
  | saveFailed m =>
    rw [hpoint] at hs hp
    cases hs
    obtain ⟨hq, hfailed, hst⟩ := hp
    exact (h.toCore.writeMetadata hq hst (by rw [hfailed]; nofun) (by rw [hfailed]; nofun)).leave hr
  | saveReady m =>
    rw [hpoint] at hs hp
    cases hs
    obtain ⟨hq, hready, hst, hl⟩ := hp
    have hcore := h.toCore.writeMetadata hq hst (fun _ => hl) (by rw [hready]; nofun)
    exact hcore.goto hr hreq ⟨hq, hl, m, rfl, hready⟩
  | removePublished =>
    rw [hpoint] at hs hp
    cases hs
    obtain ⟨hq, hl, m, hm, hready⟩ := hp
    exact h.toCore.removeBody.replyReady hr hm hready

end Proceed

/-! ### Chunks, errors and crashes -/

section Chunks

variable {δ : Type} {u : Upload δ} {s s' : State}

theorem write_inv {bytes : List UInt8} (h : Inv u s) (hs : s.write bytes = some s') : Inv u s' := by
  unfold State.write at hs
  obtain ⟨c, hc, hs⟩ := bind_some hs
  obtain ⟨i, hb, hs⟩ := bind_some hs
  have hr := h.not_reaping hc
  obtain ⟨hreq, hp⟩ := h.critical c hc
  split at hs
  · rename_i m start received offset chunkLength hpoint haction
    rw [hpoint] at hp
    obtain ⟨hq, hup, hst, j, chunk, hj, hact, hbound, hlen, hle⟩ := hp
    cases hb.symm.trans hj
    cases haction.symm.trans hact
    split at hs
    · cases hs
    rename_i hne
    split at hs
    · cases hs
      exact (h.toCore.syncFile i).leave hr
    · rename_i hfits
      cases hs
      have hpos := List.length_pos_iff.mpr hne
      -- a body that is not full was not linked
      have hnew : i ∈ s.linked → Kept u { s.files i with data := (s.files i).data ++ bytes } := by
        intro hmem
        have hfull := (h.files.kept i hmem).2.1.1
        omega
      have hcore := h.toCore.setFile (f := { s.files i with data := (s.files i).data ++ bytes }) rfl hnew
      refine hcore.goto hr hreq ⟨hq, hup, ?_, i, chunkLength, hb, haction, hbound, ?_, by omega⟩
      · intro j hj
        rw [files_setFile]
        split
        · exact h.files.staged i hb
        · exact hst j hj
      · rw [files_setFile_self, List.length_append]
        omega
  · cases hs

theorem finish_inv (h : Inv u s) (hs : s.finish = some s') : Inv u s' := by
  unfold State.finish at hs
  obtain ⟨c, hc, hs⟩ := bind_some hs
  obtain ⟨i, hb, hs⟩ := bind_some hs
  have hr := h.not_reaping hc
  obtain ⟨hreq, hp⟩ := h.critical c hc
  split at hs
  · rename_i m start received offset chunkLength hpoint haction
    rw [hpoint] at hp
    obtain ⟨hq, hup, hst, -⟩ := hp
    have hcore := h.toCore.syncFile i
    cases hs
    split
    · exact hcore.leave hr
    · refine hcore.goto hr hreq ⟨hq, .inl hup, ?_, i, hb, rfl⟩
      intro j hj
      rw [files_setFile]
      split
      · exact h.files.staged i hb
      · exact hst j hj
  · cases hs

theorem stop_inv {kept : Nat} (h : Inv u s) (hs : s.stop kept = some s') : Inv u s' := by
  unfold State.stop at hs
  obtain ⟨c, hc, hs⟩ := bind_some hs
  have hr := h.not_reaping hc
  split at hs
  · cases hs
    exact h.toCore.leave hr
  · rename_i i hb
    obtain ⟨hle, hs⟩ := guard_some hs
    cases hs
    refine (h.toCore.setFile (f := { s.files i with data := (s.files i).data.take kept }) rfl
      fun hmem => ?_).leave hr
    -- a body that was linked is on the disk as a whole
    have hk := h.files.kept i hmem
    have hall : (s.files i).data.take kept = (s.files i).data :=
      List.take_of_length_le (by rw [← hk.2.2]; exact hle)
    rw [hall]
    exact hk

end Chunks

/-! ### Around the request with the lock -/

/-- What the request with the lock relies on stays, in a step of another. -/
structure Aside (s s' : State) : Prop where
  metadata : s'.metadata = s.metadata
  linked : s'.linked = s.linked
  answers : s'.answers = s.answers
  body : s'.body = s.body
  critical : s'.critical = s.critical
  reaping : s'.reaping = s.reaping
  waiting : s.reaping = true → s.waiting = [] → s'.waiting = []
  files : ∀ i, (s.files i).staged = true → s'.files i = s.files i
  revoked : ∀ t, Revoked s.rowState s.admitted t → Revoked s'.rowState s'.admitted t
  admitted : ∀ r ∈ s.admitted, r ∈ s'.admitted
  now : s.now ≤ s'.now

section Aside

variable {δ : Type} {u : Upload δ} {s s' : State}

theorem Aside.staged (h : Aside s s') {m : Metadata} (hs : Staged s m) : Staged s' m := by
  intro i hi
  rw [h.files i (hs i hi)]
  exact hs i hi

theorem Aside.holds (h : Aside s s') (hbody : ∀ i, s.body = some i → (s.files i).staged = true)
    {action : Action} {p : Point} (hp : p.Holds u s action) : p.Holds u s' action := by
  have hfile : ∀ i, s.body = some i → s'.files i = s.files i := fun i hi => h.files i (hbody i hi)
  cases p with
  | readMetadata => trivial
  | saveTombstone m =>
    obtain ⟨hc, hi, hl, hq, hr⟩ := hp
    exact ⟨hc, hi, h.linked.trans hl, by rwa [h.answers], h.revoked _ hr⟩
  | removeBody =>
    obtain ⟨hl, hq, m, hm, hc⟩ := hp
    exact ⟨h.linked.trans hl, by rwa [h.answers], m, h.metadata.trans hm, hc⟩
  | saveCreated m => exact ⟨by rw [h.answers]; exact hp.1, hp.2.1, h.staged hp.2.2⟩
  | saveRenewed m => exact ⟨by rw [h.answers]; exact hp.1, hp.2.1, h.staged hp.2.2⟩
  | openBody m => exact ⟨by rw [h.answers]; exact hp.1, hp.2.1, h.staged hp.2.2⟩
  | receive m start received =>
    obtain ⟨hq, hup, hs, i, chunkLength, hb, ha, hle, hlen, hrec⟩ := hp
    refine ⟨by rwa [h.answers], hup, h.staged hs, i, chunkLength, h.body.trans hb, ha, hle, ?_, hrec⟩
    rwa [hfile i hb]
  | syncBody m size =>
    obtain ⟨hq, hactive, hs, i, hb, hlen⟩ := hp
    exact ⟨by rwa [h.answers], hactive, h.staged hs, i, h.body.trans hb, by rwa [hfile i hb]⟩
  | savePublishing m =>
    obtain ⟨hq, hpub, hs, i, hb, hk⟩ := hp
    exact ⟨by rwa [h.answers], hpub, h.staged hs, i, h.body.trans hb, by rwa [hfile i hb]⟩
  | link m =>
    obtain ⟨hq, hpub, hs, hm, i, hb, hk⟩ := hp
    exact ⟨by rwa [h.answers], hpub, h.staged hs, h.metadata.trans hm, i, h.body.trans hb,
      by rwa [hfile i hb]⟩
  | saveFailed m => exact ⟨by rw [h.answers]; exact hp.1, hp.2.1, h.staged hp.2.2⟩
  | saveReady m =>
    obtain ⟨hq, hready, hs, hl⟩ := hp
    exact ⟨by rwa [h.answers], hready, h.staged hs, by rwa [h.linked]⟩
  | removePublished =>
    obtain ⟨hq, hl, m, hm, hready⟩ := hp
    exact ⟨by rwa [h.answers], by rwa [h.linked], m, h.metadata.trans hm, hready⟩

theorem Inv.aside (h : Inv u s) (ha : Aside s s') (hcore : Core u s') : Inv u s' where
  toCore := hcore
  critical := by
    intro c hc
    obtain ⟨hreq, hp⟩ := h.critical c (ha.critical.symm.trans hc)
    exact ⟨ha.admitted _ hreq, ha.holds h.files.staged hp⟩
  reaping := by
    intro hr
    have hr' := ha.reaping.symm.trans hr
    obtain ⟨hw, hnone, hexp⟩ := h.reaping hr'
    refine ⟨ha.waiting hr' hw, ha.critical.trans hnone, fun m hm => ?_⟩
    exact Nat.le_trans (hexp m (ha.metadata.symm.trans hm)) ha.now

theorem tick_inv (h : Inv u s) (ms : Nat) : Inv u { s with now := s.now + ms } := by
  refine h.aside ⟨rfl, rfl, rfl, rfl, rfl, rfl, fun _ hw => hw, fun _ _ => rfl, fun _ hr => hr,
    fun _ hr => hr, Nat.le_add_right ..⟩ ?_
  exact
    { admission :=
        { h.admission with
          row := by
            have := h.admission.row
            dsimp only
            omega
          horizon := by
            intro r hr hne
            have := h.admission.horizon r hr hne
            dsimp only
            omega }
      files := h.files
      marks :=
        { h.marks with
          reportedCancelled := by
            intro hrep
            obtain ⟨hl, hm, hrev⟩ := h.marks.reportedCancelled hrep
            exact ⟨hl, hm, fun hnone => (hrev hnone).mono (Nat.le_add_right ..)⟩ }
      history := h.history }

theorem target_placeFile (directory p : Nat) (data : List UInt8) :
    (s.placeFile directory data).target p = if p = directory then some s.nextInode else s.target p :=
  Function.update_apply ..

theorem place_inv {directory : Nat} {data : List UInt8} (h : Inv u s)
    (hs : s.place directory data = some s') : Inv u s' := by
  unfold State.place at hs
  obtain ⟨-, hs⟩ := guard_some hs
  cases hs
  -- the file of the user is new, and no body
  have hother : ∀ j, j ≠ s.nextInode → (s.setFile s.nextInode { data }).files j = s.files j :=
    fun j hne => (files_setFile ..).trans (if_neg hne)
  have hold : ∀ j, j < s.nextInode → (s.setFile s.nextInode { data }).files j = s.files j :=
    fun j hlt => hother j (by omega)
  have hstaged : ∀ j, ((s.setFile s.nextInode { data }).files j).staged = true →
      (s.files j).staged = true ∧ j < s.nextInode := by
    intro j hj
    by_cases hnew : j = s.nextInode
    · rw [hnew, files_setFile_self] at hj
      cases hj
    · rw [hother j hnew] at hj
      exact ⟨hj, h.files.bound j hj⟩
  refine h.aside ⟨rfl, rfl, rfl, rfl, rfl, rfl, fun _ hw => hw,
    fun j hj => hold j (h.files.bound j hj), fun _ hr => hr, fun _ hr => hr, Nat.le_refl _⟩ ?_
  exact
    { admission := h.admission
      files :=
        { bound := fun j hj => Nat.lt_succ_of_lt (hstaged j hj).2
          inUse := by
            intro p j hj
            rw [target_placeFile] at hj
            split at hj
            · cases hj
              exact Nat.lt_succ_self _
            · exact Nat.lt_succ_of_lt (h.files.inUse p j hj)
          owned := by
            intro p j hj hst
            obtain ⟨hst, hlt⟩ := hstaged j hst
            rw [target_placeFile] at hj
            split at hj
            · cases hj
              exact absurd hlt (Nat.lt_irrefl _)
            · exact h.files.owned p j hj hst
          staged := by
            intro j hj
            have hst := h.files.staged j hj
            rwa [← hold j (h.files.bound j hst)] at hst
          kept := by
            intro j hj
            have hk := h.files.kept j hj
            rwa [← hold j (h.files.bound j hk.1)] at hk
          inode := by
            intro m hm j hj
            have hst := h.files.inode m hm j hj
            rwa [← hold j (h.files.bound j hst)] at hst }
      marks := h.marks
      history := h.history }

theorem remove_inv (h : Inv u s) (directory : Nat) :
    Inv u { s with target := Function.update s.target directory none } := by
  have hsame : ∀ p j, Function.update s.target directory none p = some j → s.target p = some j := by
    intro p j hj
    rw [Function.update_apply] at hj
    split at hj
    · cases hj
    · exact hj
  refine h.aside ⟨rfl, rfl, rfl, rfl, rfl, rfl, fun _ hw => hw, fun _ _ => rfl, fun _ hr => hr,
    fun _ hr => hr, Nat.le_refl _⟩ ?_
  exact
    { admission := h.admission
      files :=
        { h.files with
          inUse := fun p j hj => h.files.inUse p j (hsame p j hj)
          owned := fun p j hj => h.files.owned p j (hsame p j hj) }
      marks := h.marks
      history := h.history }

theorem admitted_inv (h : Inv u s) {r : Request} (hup : s.rowState = .uploading)
    (hne : r.action ≠ .cancel) (hv : r.valid u = true) {t : Nat} (ht : t ≤ s.now + transferTtl)
    (hr : r.expiresAt ≤ s.now + transferTtl) :
    Inv u { s with rowExpiresAt := t, admitted := r :: s.admitted } := by
  refine h.aside ⟨rfl, rfl, rfl, rfl, rfl, rfl, fun _ hw => hw, fun _ _ => rfl,
    fun _ hrev => absurd hup hrev.1, fun _ hmem => List.mem_cons_of_mem _ hmem, Nat.le_refl _⟩ ?_
  exact
    { admission :=
        { row := ht
          horizon := by
            intro r' hr' hne'
            obtain rfl | hr' := List.mem_cons.mp hr'
            · exact hr
            · exact h.admission.horizon r' hr' hne'
          revoked := by
            intro r' hr' hcancel
            obtain rfl | hr' := List.mem_cons.mp hr'
            · exact absurd hcancel hne
            · exact h.admission.revoked r' hr' hcancel
          valid := by
            intro r' hr'
            obtain rfl | hr' := List.mem_cons.mp hr'
            · exact hv
            · exact h.admission.valid r' hr'
          waiting := fun r' hr' => List.mem_cons_of_mem _ (h.admission.waiting r' hr') }
      files := h.files
      marks := h.marks.revoke fun _ hrev => absurd hup hrev.1
      history := h.history }

theorem admitRequest_inv {action : Action} (h : Inv u s) (hne : action ≠ .cancel)
    (hs : s.admitRequest u action = some s') : Inv u s' := by
  unfold State.admitRequest at hs
  obtain ⟨⟨hup, -⟩, hs⟩ := guard_some hs
  cases hs
  split
  · rename_i hv
    exact admitted_inv h hup hne hv (Nat.le_refl _) (Nat.le_refl _)
  · refine h.aside ⟨rfl, rfl, rfl, rfl, rfl, rfl, fun _ hw => hw, fun _ _ => rfl,
      fun _ hr => hr, fun _ hr => hr, Nat.le_refl _⟩ ?_
    exact
      { admission := { h.admission with row := Nat.le_refl _ }
        files := h.files
        marks := h.marks
        history := h.history }

theorem admitCreate_inv (h : Inv u s) (hs : s.admitCreate = some s') : Inv u s' := by
  unfold State.admitCreate at hs
  obtain ⟨⟨hup, -⟩, hs⟩ := guard_some hs
  cases hs
  have hne : Action.create ≠ .cancel := nofun
  exact admitted_inv h hup hne rfl h.admission.row h.admission.row

theorem admitCancel_inv (h : Inv u s) (hs : s.admitCancel = some s') : Inv u s' := by
  unfold State.admitCancel at hs
  obtain ⟨-, hs⟩ := guard_some hs
  cases hs
  have hrevoked : ∀ t, Revoked s.rowState s.admitted t →
      Revoked .cancelled ({ action := .cancel, expiresAt := s.rowExpiresAt } :: s.admitted) t := by
    intro t hrev
    refine ⟨nofun, fun r hr hne => ?_⟩
    obtain rfl | hr := List.mem_cons.mp hr
    · exact absurd rfl hne
    · exact hrev.2 r hr hne
  refine h.aside ⟨rfl, rfl, rfl, rfl, rfl, rfl, fun _ hw => hw, fun _ _ => rfl, hrevoked,
    fun _ hmem => List.mem_cons_of_mem _ hmem, Nat.le_refl _⟩ ?_
  exact
    { admission :=
        { row := h.admission.row
          horizon := by
            intro r hr hne
            obtain rfl | hr := List.mem_cons.mp hr
            · exact absurd rfl hne
            · exact h.admission.horizon r hr hne
          revoked := nofun
          valid := by
            intro r hr
            obtain rfl | hr := List.mem_cons.mp hr
            · rfl
            · exact h.admission.valid r hr
          waiting := fun r hr => List.mem_cons_of_mem _ (h.admission.waiting r hr) }
      files := h.files
      marks := h.marks.revoke hrevoked
      history := h.history }

/-- A row that takes a state other than `uploading`. -/
theorem rowState_inv (h : Inv u s) {state : RowState} (hne : state ≠ .uploading) :
    Inv u { s with rowState := state } := by
  have hrevoked : ∀ t, Revoked s.rowState s.admitted t → Revoked state s.admitted t :=
    fun t hrev => ⟨hne, hrev.2⟩
  refine h.aside ⟨rfl, rfl, rfl, rfl, rfl, rfl, fun _ hw => hw, fun _ _ => rfl, hrevoked,
    fun _ hmem => hmem, Nat.le_refl _⟩ ?_
  exact
    { admission := { h.admission with revoked := fun _ _ _ => hne }
      files := h.files
      marks := h.marks.revoke hrevoked
      history := h.history }

theorem settle_inv {a : Answer} (h : Inv u s) (hs : s.settle a = some s') : Inv u s' := by
  unfold State.settle at hs
  obtain ⟨-, hs⟩ := guard_some hs
  split at hs
  · cases hs
  · cases hs
    exact rowState_inv h nofun
  · cases hs
    exact rowState_inv h nofun

theorem arrive_inv {r : Request} (h : Inv u s) (hs : s.arrive r = some s') : Inv u s' := by
  unfold State.arrive at hs
  obtain ⟨⟨hmem, hr⟩, hs⟩ := guard_some hs
  obtain ⟨-, hs⟩ := guard_some hs
  cases hs
  refine h.aside ⟨rfl, rfl, rfl, rfl, rfl, rfl, fun hr' => ?_, fun _ _ => rfl, fun _ hrev => hrev,
    fun _ hr => hr, Nat.le_refl _⟩ ?_
  · rw [hr] at hr'
    cases hr'
  · exact
      { admission :=
          { h.admission with
            waiting := by
              intro r' hr'
              obtain rfl | hr' := List.mem_cons.mp hr'
              · exact hmem
              · exact h.admission.waiting r' hr' }
        files := h.files
        marks := h.marks
        history := h.history }

theorem abandon_inv (h : Inv u s) (r : Request) :
    Inv u { s with waiting := s.waiting.erase r } := by
  refine h.aside ⟨rfl, rfl, rfl, rfl, rfl, rfl, fun _ hw => ?_, fun _ _ => rfl, fun _ hrev => hrev,
    fun _ hr => hr, Nat.le_refl _⟩ ?_
  · show s.waiting.erase r = []
    rw [hw]
    rfl
  · exact
      { admission :=
          { h.admission with waiting := fun r' hr' => h.admission.waiting r' (List.mem_of_mem_erase hr') }
        files := h.files
        marks := h.marks
        history := h.history }

theorem replaceParent_inv (h : Inv u s) (directory : Nat) : Inv u { s with parent := directory } :=
  h.aside ⟨rfl, rfl, rfl, rfl, rfl, rfl, fun _ hw => hw, fun _ _ => rfl, fun _ hr => hr,
    fun _ hr => hr, Nat.le_refl _⟩ ⟨h.admission, h.files, h.marks, h.history⟩

end Aside

/-! ### The lock and maintenance -/

section Maintenance

variable {δ : Type} {u : Upload δ} {s s' : State}

theorem lock_inv {r : Request} (h : Inv u s) (hs : s.lock r = some s') : Inv u s' := by
  unfold State.lock at hs
  obtain ⟨⟨hmem, -⟩, hs⟩ := guard_some hs
  cases hs
  exact
    { admission :=
        { h.admission with waiting := fun r' hr' => h.admission.waiting r' (List.mem_of_mem_erase hr') }
      files := h.files
      marks := h.marks
      history := h.history
      critical := by
        rintro _ ⟨⟩
        exact ⟨h.admission.waiting r hmem, trivial⟩
      reaping := by
        intro hr
        rw [(h.reaping hr).1] at hmem
        cases hmem }

theorem reap_inv {mtime : Nat} (h : Inv u s) (hs : s.reap mtime = some s') : Inv u s' := by
  unfold State.reap at hs
  obtain ⟨⟨-, hw, hnone, -⟩, hs⟩ := guard_some hs
  obtain ⟨hexp, hs⟩ := guard_some hs
  cases hs
  exact
    { admission := h.admission
      files := h.files
      marks := h.marks
      history := h.history
      critical := h.critical
      reaping := by
        intro _
        refine ⟨hw, hnone, fun m hm => ?_⟩
        dsimp only at hm
        rwa [hm] at hexp }

theorem reapMetadata_inv (h : Inv u s) (hr : s.reaping = true) :
    Inv u { s with metadata := none } := by
  obtain ⟨hw, hnone, hexp⟩ := h.reaping hr
  exact
    { admission := h.admission
      files := { h.files with inode := nofun }
      marks :=
        { ready := nofun
          tombstone := nofun
          reportedReady := fun hrep => ⟨(h.marks.reportedReady hrep).1, nofun⟩
          reportedCancelled := by
            intro hrep
            obtain ⟨hl, hm, hrev⟩ := h.marks.reportedCancelled hrep
            refine ⟨hl, nofun, fun _ => ?_⟩
            cases hmeta : s.metadata with
            | none => exact hrev hmeta
            | some m => exact ((h.marks.tombstone m hmeta (hm m hmeta)).2).mono (hexp m hmeta) }
      history := h.history
      critical := by
        intro c hc
        cases hnone.symm.trans hc
      reaping := fun _ => ⟨hw, hnone, nofun⟩ }

theorem reapBody_inv (h : Inv u s) (hr : s.reaping = true) : Inv u { s with body := none } := by
  obtain ⟨hw, hnone, hexp⟩ := h.reaping hr
  exact
    { h.toCore.removeBody with
      critical := by
        intro c hc
        cases hnone.symm.trans hc
      reaping := fun _ => ⟨hw, hnone, hexp⟩ }

theorem reapStop_inv (h : Inv u s) : Inv u { s with reaping := false } where
  admission := h.admission
  files := h.files
  marks := h.marks
  history := h.history
  critical := h.critical
  reaping := nofun

theorem reapEnd_inv (h : Inv u s) (hs : s.reapEnd = some s') : Inv u s' := by
  unfold State.reapEnd at hs
  obtain ⟨-, hs⟩ := guard_some hs
  cases hs
  exact
    { admission := h.admission
      files := h.files
      marks := h.marks
      history := h.history
      critical := h.critical
      reaping := nofun }

end Maintenance

/-! ## Runs -/

section Runs

variable {δ : Type} {u : Upload δ} {s s' : State}

theorem Initial.inv (h : Initial s) : Inv u s where
  admission := by
    obtain ⟨-, hrow, hadm⟩ := h.row
    rw [hadm, hrow, h.idle.1]
    exact ⟨Nat.le_refl _, nofun, nofun, nofun, nofun⟩
  files := by
    rw [h.staging.1, h.staging.2, h.fresh.1]
    refine ⟨fun i hi => ?_, h.target, fun p i _ hi => ?_, nofun, nofun, nofun⟩
    · rw [h.files i] at hi
      cases hi
    · rw [h.files i] at hi
      cases hi
  marks := by
    rw [h.staging.1, h.fresh.2]
    exact ⟨nofun, nofun, nofun, nofun⟩
  history := by
    rw [h.fresh.2]
    exact ⟨.nil, nofun⟩
  critical := by
    intro c hc
    cases h.idle.2.1.symm.trans hc
  reaping := by
    intro hr
    cases h.idle.2.2.symm.trans hr

theorem Inv.safe (h : Inv u s) : Safe u s where
  complete i hi := (h.files.kept i hi).2.1
  ready := h.history.order
  cancelled hrep := (h.marks.reportedCancelled hrep).1
  stored := h.history.stored

variable [DecidableEq δ]

theorem apply_inv {op : Op} (h : Inv u s) (ho : Orderly s op) (hs : apply u s op = some s') :
    Inv u s' := by
  cases op with
  | tick ms =>
    cases hs
    exact tick_inv h ms
  | place directory data => exact place_inv h hs
  | remove directory =>
    cases hs
    exact remove_inv h directory
  | replaceParent directory =>
    cases hs
    exact replaceParent_inv h directory
  | admitCreate => exact admitCreate_inv h hs
  | admitStatus =>
    have hne : Action.status ≠ .cancel := nofun
    exact admitRequest_inv h hne hs
  | admitAppend offset chunkLength =>
    have hne : Action.append offset chunkLength ≠ .cancel := nofun
    exact admitRequest_inv h hne hs
  | admitCancel => exact admitCancel_inv h hs
  | settle a => exact settle_inv h hs
  | arrive r => exact arrive_inv h hs
  | abandon r =>
    cases hs
    exact abandon_inv h r
  | lock r => exact lock_inv h hs
  | proceed => exact proceed_inv h ho hs
  | write bytes => exact write_inv h hs
  | finish => exact finish_inv h hs
  | stop kept => exact stop_inv h hs
  | reap mtime => exact reap_inv h hs
  | reapMetadata =>
    obtain ⟨hr, heq⟩ := Option.ite_none_right_eq_some.mp hs
    cases heq
    exact reapMetadata_inv h hr
  | reapBody =>
    obtain ⟨hr, heq⟩ := Option.ite_none_right_eq_some.mp hs
    cases heq
    exact reapBody_inv h hr
  | reapEnd => exact reapEnd_inv h hs
  | reapStop =>
    obtain ⟨-, heq⟩ := Option.ite_none_right_eq_some.mp hs
    cases heq
    exact reapStop_inv h

/-- Only `link` changes the destination. -/
theorem proceed_target (hs : s.proceed u = some s') :
    s'.target = s.target ∨ ∃ c m i, s.critical = some c ∧ c.point = .link m ∧ s.body = some i ∧
      s' = s.link c m i := by
  obtain ⟨c, hc, hs⟩ := Option.bind_eq_some_iff.mp hs
  cases hpoint : c.point with
  | readMetadata =>
    left
    rw [hpoint] at hs
    cases hs
    unfold State.decideCancel State.decideWork
    repeat' split
    all_goals rfl
  | openBody m =>
    left
    rw [hpoint] at hs
    cases hs
    unfold State.openBody State.checkBody
    repeat' split
    all_goals rfl
  | syncBody m size =>
    left
    rw [hpoint] at hs
    obtain ⟨i, -, rfl⟩ := Option.map_eq_some_iff.mp hs
    unfold State.syncBody State.verify
    dsimp only
    repeat' split
    all_goals rfl
  | link m =>
    right
    rw [hpoint] at hs
    obtain ⟨i, hb, rfl⟩ := Option.map_eq_some_iff.mp hs
    exact ⟨c, m, i, hc, hpoint, hb, rfl⟩
  | receive m start received =>
    rw [hpoint] at hs
    cases hs
  | _ =>
    left
    rw [hpoint] at hs
    cases hs
    rfl

theorem proceed_publishes (h : Inv u s) (hs : s.proceed u = some s') : Publishes u s .proceed s' := by
  intro p hp
  obtain hsame | ⟨c, m, i, hc, hpoint, hb, rfl⟩ := proceed_target hs
  · exact absurd (congrFun hsame p) hp
  obtain ⟨-, hholds⟩ := h.critical c hc
  rw [hpoint] at hholds
  obtain ⟨-, -, -, -, j, hj, hk⟩ := hholds
  cases hb.symm.trans hj
  unfold State.link at hp ⊢
  split at hp
  · exact absurd rfl hp
  · rename_i hnone
    have htarget : ((s.putLink c.parent i).goto c (.saveReady { m with state := .ready })).target p =
        if p = c.parent then some i else s.target p := target_putLink c.parent p i
    rw [htarget] at hp ⊢
    split at hp
    · rename_i hparent
      subst hparent
      rw [hnone]
      exact .inr (.inr ⟨rfl, i, List.mem_cons_self, if_pos rfl, hk.2.1⟩)
    · exact absurd rfl hp

theorem apply_target {op : Op} (hs : apply u s op = some s') :
    (∃ directory data, op = .place directory data) ∨ (∃ directory, op = .remove directory) ∨
      op = .proceed ∨ s'.target = s.target := by
  have hrequest : ∀ action, s.admitRequest u action = some s' → s'.target = s.target := by
    intro action hs
    obtain ⟨-, hs⟩ := guard_some hs
    cases hs
    rfl
  cases op with
  | place directory data => exact .inl ⟨directory, data, rfl⟩
  | remove directory => exact .inr (.inl ⟨directory, rfl⟩)
  | proceed => exact .inr (.inr (.inl rfl))
  | admitStatus => exact .inr (.inr (.inr (hrequest _ hs)))
  | admitAppend offset chunkLength => exact .inr (.inr (.inr (hrequest _ hs)))
  | admitCreate =>
    obtain ⟨-, hs⟩ := guard_some hs
    cases hs
    exact .inr (.inr (.inr rfl))
  | admitCancel =>
    obtain ⟨-, hs⟩ := guard_some hs
    cases hs
    exact .inr (.inr (.inr rfl))
  | settle a =>
    obtain ⟨-, hs⟩ := guard_some hs
    split at hs <;> cases hs <;> exact .inr (.inr (.inr rfl))
  | arrive r =>
    obtain ⟨-, hs⟩ := guard_some hs
    obtain ⟨-, hs⟩ := guard_some hs
    cases hs
    exact .inr (.inr (.inr rfl))
  | lock r =>
    obtain ⟨-, hs⟩ := guard_some hs
    cases hs
    exact .inr (.inr (.inr rfl))
  | write bytes =>
    obtain ⟨c, -, hs⟩ := bind_some hs
    obtain ⟨i, -, hs⟩ := bind_some hs
    split at hs
    · split at hs
      · cases hs
      · split at hs <;> cases hs <;> exact .inr (.inr (.inr rfl))
    · cases hs
  | finish =>
    obtain ⟨c, -, hs⟩ := bind_some hs
    obtain ⟨i, -, hs⟩ := bind_some hs
    split at hs
    · cases hs
      split <;> exact .inr (.inr (.inr rfl))
    · cases hs
  | stop kept =>
    obtain ⟨c, -, hs⟩ := bind_some hs
    split at hs
    · cases hs
      exact .inr (.inr (.inr rfl))
    · obtain ⟨-, hs⟩ := guard_some hs
      cases hs
      exact .inr (.inr (.inr rfl))
  | reap mtime =>
    obtain ⟨-, hs⟩ := guard_some hs
    obtain ⟨-, hs⟩ := guard_some hs
    cases hs
    exact .inr (.inr (.inr rfl))
  | reapMetadata =>
    obtain ⟨-, heq⟩ := Option.ite_none_right_eq_some.mp hs
    cases heq
    exact .inr (.inr (.inr rfl))
  | reapBody =>
    obtain ⟨-, heq⟩ := Option.ite_none_right_eq_some.mp hs
    cases heq
    exact .inr (.inr (.inr rfl))
  | reapEnd =>
    obtain ⟨-, hs⟩ := guard_some hs
    cases hs
    exact .inr (.inr (.inr rfl))
  | reapStop =>
    obtain ⟨-, heq⟩ := Option.ite_none_right_eq_some.mp hs
    cases heq
    exact .inr (.inr (.inr rfl))
  | _ =>
    cases hs
    exact .inr (.inr (.inr rfl))

theorem apply_publishes {op : Op} (h : Inv u s) (hs : apply u s op = some s') :
    Publishes u s op s' := by
  obtain ⟨directory, data, rfl⟩ | ⟨directory, rfl⟩ | rfl | hsame := apply_target hs
  · -- the user creates a file
    obtain ⟨-, hs⟩ := guard_some hs
    cases hs
    intro p hp
    rw [target_placeFile] at hp
    split at hp
    · rename_i hdirectory
      exact .inl ⟨data, by rw [hdirectory]⟩
    · exact absurd rfl hp
  · cases hs
    intro p hp
    dsimp only at hp
    rw [Function.update_apply] at hp
    split at hp
    · rename_i hdirectory
      exact .inr (.inl (by rw [hdirectory]))
    · exact absurd rfl hp
  · exact proceed_publishes h hs
  · exact fun p hp => absurd (congrFun hsame p) hp

def orderlyStep (u : Upload δ) (s : State) (op : Op) : Option State :=
  if Orderly s op then apply u s op else none

theorem orderlyStep_step (s : State) (op : Op) (t : State) (h : orderlyStep u s op = some t) :
    ((transferSystem u).guard Orderly).step s op t :=
  Option.ite_none_right_eq_some.mp h

end Runs

/-! ### Two runs of one byte -/

def oneByte : Upload (List UInt8) where
  byteLength := 1
  sha256 := [7]
  digest := id

def emptyWorkspace : State where
  now := 0
  rowExpiresAt := transferTtl
  parent := 1
  target _ := none
  files _ := {}
  nextInode := 5

theorem emptyWorkspace_initial : Initial emptyWorkspace where
  row := ⟨rfl, rfl, rfl⟩
  staging := ⟨rfl, rfl⟩
  files _ := rfl
  target _ _ := nofun
  idle := ⟨rfl, rfl, rfl⟩
  fresh := ⟨rfl, rfl⟩

/-- The upload is created, and its byte appended, verified and linked. -/
def linkedRun : List Op :=
  let create : Request := { action := .create, expiresAt := transferTtl }
  let append : Request := { action := .append 0 1, expiresAt := transferTtl }
  [.admitCreate, .arrive create, .lock create, .proceed, .proceed, .proceed, .proceed,
    .admitAppend 0 1, .arrive append, .lock append, .proceed, .proceed, .write [7], .finish, .proceed,
    .proceed, .proceed]

end Workspace
end PiCloud
