import Mathlib.Order.Nat
import PiCloud.EventLog.EffectDispatch

/-!
# EventLog.OffsetOrder

The group offset over a run.

* `Ordered`: where the guard holds, the offset is written in rising order.
* `effects_once_offset_rising`: effects run at most once, and the offset never falls under the guard.
* `publication_regresses_offset`: without the guard it does.
-/

namespace PiCloud
namespace EventLog

open Lib
open Member (Sound)

/-- The commit of this assignment that was taken and whose receipt is on the way, or 0. -/
def Member.receipt (m : Member) : Nat :=
  match m.sending with
  | some x =>
    if x.stage = .accepted ∧ x.write.isCommit ∧ x.generation = m.generation then x.write.offset
    else 0
  | none => 0

def Member.top (m : Member) : Nat := max (m.committed.getD 0) (max m.doubt m.receipt)

theorem receipt_of_none {m : Member} (h : m.sending = none) : m.receipt = 0 := by
  simp [Member.receipt, h]

theorem receipt_of_ne {m : Member} {x : Sending} (hx : m.sending = some x)
    (h : ¬ (x.stage = .accepted ∧ x.write.isCommit ∧ x.generation = m.generation)) :
    m.receipt = 0 := by
  unfold Member.receipt
  rw [hx]
  exact if_neg h

theorem receipt_of_received {m m' : Member} {x : Sending} (h : Received m m' x) :
    m.receipt = x.write.offset := by
  unfold Member.receipt
  rw [h.sending]
  exact if_pos ⟨h.accepted, h.commit, h.current⟩

/-- The offset was written in rising order, and the next write will be no lower. -/
structure Ordered (s : EffectGroup) : Prop where
  rising : Register.Rising s.log
  live : ∀ i, (s.members i).group = some s.generation → (s.members i).committed.isSome →
    Register.Below (s.members i).top s.log
  flight : ∀ i, ∀ x ∈ (s.members i).sending, x.stage ≠ .accepted → x.group = s.generation →
    Register.Below (max x.write.offset (s.members i).doubt) s.log
  /-- a publication does not advance the offset -/
  held : ∀ i, ∀ x ∈ (s.members i).sending, (s.members i).group = some x.group →
    ∀ c ∈ (s.members i).committed, x.generation = (s.members i).generation ∧
      (x.write.isCommit = false → x.write.offset ≤ c)

theorem Received.top_le {m m' : Member} {x : Sending} (h : Received m m' x) (hm : Sound m) :
    m.top ≤ m'.top := by
  obtain ⟨c, hc, hlt⟩ := hm.above x h.sending h.current h.commit
  unfold Member.top
  rw [receipt_of_received h, receipt_of_none h.free, h.committed, h.doubt, hc]
  simp only [Option.getD_some]
  omega

theorem Change.below {s : EffectGroup} {i : Nat} {m : Member} (h : Change s i (s.members i) m)
    (ho : Ordered s) (hm : Sound (s.members i)) (hg : m.group = some s.generation)
    (hc : m.committed.isSome) : Register.Below m.top s.log := by
  have hold : m.group = (s.members i).group → m.committed = (s.members i).committed →
      Register.Below (s.members i).top s.log :=
    fun h₁ h₂ => ho.live i (h₁.symm.trans hg) (h₂ ▸ hc)
  cases h with
  | quiet hgen hgr hcm hs hd =>
    have htop : m.top = (s.members i).top := by
      simp only [Member.top, Member.receipt, hgen, hcm, hs, hd]
    exact htop ▸ hold hgr hcm
  | revoked hn _ _ _ => simp [hn] at hc
  | joined _ hn _ _ _ _ _ => simp [hn] at hc
  | seeded low _ _ _ hst hcm =>
    refine ho.rising.below_current hst _ (fun v hv => ?_)
    rw [Member.top, hcm, EffectGroup.offset, hv]
    simp only [Option.getD_some]
    omega
  | started x c _ hgr hcm hd hn _ _ _ _ _ _ _ _ =>
    refine (hold hgr hcm).mono ?_
    unfold Member.top
    rw [receipt_of_none hn, hcm, hd]
    omega
  | restaged x stage _ hgr hcm hd hx _ hst _ =>
    refine (hold hgr hcm).mono ?_
    unfold Member.top
    rw [receipt_of_ne hx (fun h => hst h.1), hcm, hd]
    omega
  | released x _ hgr hcm hx hn hd hdoubt =>
    refine (hold hgr hcm).mono ?_
    have hrec : (s.members i).receipt ≤ m.doubt := by
      unfold Member.receipt
      rw [hx]
      dsimp only
      split
      · rename_i h
        exact hdoubt h.1 h.2.1 h.2.2
      · exact Nat.zero_le _
    unfold Member.top
    rw [hcm]
    omega
  | received x hr _ =>
    have hgr := hr.group
    obtain ⟨c, hc', _⟩ := hm.above x hr.sending hr.current hr.commit
    exact (ho.live i (hgr.symm.trans hg) (by rw [hc']; rfl)).mono (hr.top_le hm)
  | crashed he => simp [he] at hg

theorem Change.belowFlight {s : EffectGroup} {i : Nat} {m : Member}
    (h : Change s i (s.members i) m) (ho : Ordered s) (hf : Fits s i (s.members i)) {x : Sending}
    (hx : m.sending = some x) (hst : x.stage ≠ .accepted) (hg : x.group = s.generation) :
    Register.Below (max x.write.offset m.doubt) s.log := by
  cases h with
  | quiet _ _ _ hs hd =>
    rw [hd]
    exact ho.flight i x (hs.symm.trans hx) hst hg
  | revoked _ hs _ hd =>
    rw [hd]
    exact ho.flight i x (hs.symm.trans hx) hst hg
  | joined g _ hs _ hle _ hlt =>
    -- what an earlier assignment has in flight is fenced
    have := hlt x (hs.symm.trans hx)
    omega
  | seeded _ _ hs hlt _ _ =>
    obtain ⟨g, hgm, hgt⟩ := hlt x (hs.symm.trans hx)
    have := (hf.group g hgm).1
    omega
  | started y c _ _ _ hd hn hy _ hyg _ hc hle _ _ =>
    cases hy.symm.trans hx
    refine (ho.live i (hg ▸ hyg) (by rw [hc]; rfl)).mono ?_
    unfold Member.top
    rw [receipt_of_none hn, hc, hd]
    simp only [Option.getD_some]
    omega
  | restaged y stage _ _ _ hd hym hy hyst _ =>
    cases hy.symm.trans hx
    rw [hd]
    exact ho.flight i y hym hyst hg
  | released _ _ _ _ _ hn _ _ => cases hn.symm.trans hx
  | received _ hr _ => cases hr.free.symm.trans hx
  | crashed he => simp [he] at hx

theorem Change.held {s : EffectGroup} {i : Nat} {m : Member} (h : Change s i (s.members i) m)
    (ho : Ordered s) {x : Sending} (hx : m.sending = some x) (hg : m.group = some x.group) {c : Nat}
    (hc : m.committed = some c) :
    x.generation = m.generation ∧ (x.write.isCommit = false → x.write.offset ≤ c) := by
  cases h with
  | quiet hgen hgr hcm hs _ =>
    have := ho.held i x (hs.symm.trans hx) (hgr.symm.trans hg) c (hcm.symm.trans hc)
    exact ⟨this.1.trans hgen.symm, this.2⟩
  | revoked hn _ _ _ => cases hn.symm.trans hc
  | joined _ hn _ _ _ _ _ => cases hn.symm.trans hc
  | seeded _ hgr hs hlt _ _ =>
    obtain ⟨g, hgm, hgt⟩ := hlt x (hs.symm.trans hx)
    cases (hgr.symm.trans hg).symm.trans hgm
    exact absurd hgt (Nat.lt_irrefl _)
  | started y c₀ hgen _ hcm _ _ hy hyg _ _ hc₀ _ _ heq =>
    cases hy.symm.trans hx
    cases hc₀.symm.trans (hcm.symm.trans hc)
    exact ⟨hyg.trans hgen.symm, heq⟩
  | restaged y stage hgen hgr hcm _ hym hy _ _ =>
    cases hy.symm.trans hx
    have := ho.held i y hym (hgr.symm.trans hg) c (hcm.symm.trans hc)
    exact ⟨this.1.trans hgen.symm, this.2⟩
  | released _ _ _ _ _ hn _ _ => cases hn.symm.trans hx
  | received _ hr _ => cases hr.free.symm.trans hx
  | crashed he => simp [he] at hx

theorem ordered_member {s : EffectGroup} (ho : Ordered s) (h : Once s) {i : Nat} {m : Member}
    (hc : Change s i (s.members i) m) : Ordered (s.setMember i m) := by
  refine
    { rising := ho.rising
      live := fun j hg hcm => ?_
      flight := fun j x hx hst hg => ?_
      held := fun j x hx hg c hcm => ?_ }
  · by_cases hj : j = i
    · subst hj
      rw [setMember_self_members] at hg hcm ⊢
      exact hc.below ho (h.sound j) hg hcm
    · rw [setMember_of_ne s m hj] at hg hcm ⊢
      exact ho.live j hg hcm
  · by_cases hj : j = i
    · subst hj
      rw [setMember_self_members] at hx ⊢
      exact hc.belowFlight ho (h.fits j) hx hst hg
    · rw [setMember_of_ne s m hj] at hx ⊢
      exact ho.flight j x hx hst hg
  · by_cases hj : j = i
    · subst hj
      rw [setMember_self_members] at hx hg hcm ⊢
      exact hc.held ho hx hg hcm
    · rw [setMember_of_ne s m hj] at hx hg hcm ⊢
      exact ho.held j x hx hg c hcm

theorem ordered_ran {s : EffectGroup} (ho : Ordered s) (h : Once s) {i : Nat} {m : Member}
    {x : Sending} {p : Nat} (hr : Received (s.members i) m x) :
    Ordered ((s.setMember i m).runEffect p) := by
  have hmem : ∀ j, ((s.setMember i m).runEffect p).members j =
      if j = i then m else s.members j := fun j => setMember_members s i j m
  refine
    { rising := ho.rising
      live := fun j hg hcm => ?_
      flight := fun j y hy hst hg => ?_
      held := fun j y hy hg c hcm => ?_ }
  · rw [hmem] at hg hcm ⊢
    by_cases hj : j = i
    · subst hj
      rw [if_pos rfl] at hg ⊢
      obtain ⟨c, hc, _⟩ := (h.sound j).above x hr.sending hr.current hr.commit
      exact (ho.live j (hr.group.symm.trans hg) (by rw [hc]; rfl)).mono (hr.top_le (h.sound j))
    · rw [if_neg hj] at hg hcm ⊢
      exact ho.live j hg hcm
  · rw [hmem] at hy ⊢
    split at hy
    · rw [hr.free] at hy
      cases hy
    · rename_i hj
      rw [if_neg hj]
      exact ho.flight j y hy hst hg
  · rw [hmem] at hy hg hcm ⊢
    split at hy
    · rw [hr.free] at hy
      cases hy
    · rename_i hj
      rw [if_neg hj] at hg hcm ⊢
      exact ho.held j y hy hg c hcm

theorem ordered_rebalanced {s : EffectGroup} (ho : Ordered s) (h : Once s) (owner : Option Nat) :
    Ordered { s with
      generation := s.generation + 1
      owners := Function.update s.owners (s.generation + 1) owner } where
  rising := ho.rising
  live i hg := absurd ((h.fits i).group _ hg).1 (Nat.not_succ_le_self _)
  flight i x hx _ hg := by
    have := ((h.fits i).sending x hx).1
    rw [hg] at this
    exact absurd this (Nat.not_succ_le_self _)
  held := ho.held

theorem ordered_resolved {s : EffectGroup} (ho : Ordered s) (entry : Nat) (keep : Bool) :
    Ordered { s with log := Register.resolve s.log entry keep } where
  rising := ho.rising.resolve entry keep
  live i hg hc := (ho.live i hg hc).resolve entry keep
  flight i x hx hst hg := (ho.flight i x hx hst hg).resolve entry keep
  held := ho.held

theorem Ordered.below_accepted {s : EffectGroup} (ho : Ordered s) {i : Nat} {x : Sending}
    (hx : (s.members i).sending = some x) (hst : x.stage = .inFlight)
    (hg : x.group = s.generation) (hd : (s.members i).doubt ≤ x.write.offset) :
    Register.Below x.write.offset s.log :=
  (ho.flight i x hx (by simp [hst]) hg).mono (by omega)

theorem ordered_accepted {s : EffectGroup} (ho : Ordered s) (h : Once s) {i : Nat} {x : Sending}
    (hx : (s.members i).sending = some x) (hst : x.stage = .inFlight)
    (hg : x.group = s.generation) (hd : (s.members i).doubt ≤ x.write.offset) :
    Ordered { s.setMember i { s.members i with sending := some { x with stage := .accepted } } with
      log :=
        { value := x.write.offset
          status := if x.write.isCommit then .taken else .undecided } :: s.log } := by
  have hbelow := ho.below_accepted hx hst hg hd
  let m : Member := { s.members i with sending := some { x with stage := .accepted } }
  have hmem : ∀ j, (s.setMember i m).members j = if j = i then m else s.members j :=
    fun j => setMember_members s i j m
  refine
    { rising := ⟨fun _ => hbelow, ho.rising⟩
      live := fun j hgj hcm => ?_
      flight := fun j y hy hys hyg => ?_
      held := fun j y hy hgj c hcm => ?_ }
  · dsimp only at hgj hcm ⊢
    rw [hmem] at hgj hcm ⊢
    have hj : j = i := by
      refine h.unique (.inl ?_) (.inr ⟨x, hx, hg⟩)
      by_cases hj : j = i
      · rw [if_pos hj] at hgj
        exact hj ▸ hgj
      · rwa [if_neg hj] at hgj
    rw [if_pos hj] at hgj hcm ⊢
    obtain ⟨c, hc⟩ := Option.isSome_iff_exists.mp hcm
    obtain ⟨hgen, heq⟩ := ho.held i x hx (hg ▸ hgj) c hc
    have hle : x.write.offset ≤ m.top := by
      unfold Member.top Member.receipt
      rw [hc]
      dsimp only [m]
      cases hcom : x.write.isCommit with
      | true =>
        rw [if_pos ⟨rfl, rfl, hgen⟩]
        omega
      | false =>
        have := heq hcom
        simp only [Option.getD_some]
        omega
    intro e he hne
    cases List.mem_cons.mp he with
    | inl he => exact he ▸ hle
    | inr he => exact Nat.le_trans (hbelow e he hne) hle
  · dsimp only at hy
    rw [hmem] at hy
    split at hy
    · cases hy
      exact absurd rfl hys
    · rename_i hj
      exact absurd (h.unique (.inr ⟨y, hy, hyg⟩) (.inr ⟨x, hx, hg⟩)) hj
  · dsimp only at hy hgj hcm ⊢
    rw [hmem] at hy hgj hcm ⊢
    by_cases hj : j = i
    · rw [if_pos hj] at hy hgj hcm ⊢
      cases hy
      exact ho.held i x hx hgj c hcm
    · rw [if_neg hj] at hy hgj hcm ⊢
      exact ho.held j y hy hgj c hcm

theorem ordered_step {s t : EffectGroup} {a : EffectTurn} (ho : Ordered s) (h : Once s)
    (hg : s.Guard a) (hs : s.act a = some t) : Ordered t := by
  cases turned h.sound hs with
  | member i m _ hc => exact ordered_member ho h hc
  | ran i m x p _ hr _ => exact ordered_ran ho h hr
  | rebalanced owner => exact ordered_rebalanced ho h owner
  | accepted i x hx hst hgr _ => exact ordered_accepted ho h hx hst hgr (hg x hx)
  | resolved entry keep => exact ordered_resolved ho entry keep

theorem ordered_init : Ordered {} where
  rising := trivial
  live := nofun
  flight := nofun
  held := nofun

theorem reach_ordered {turns : List EffectTurn} {s : EffectGroup}
    (h : Reach (effectGroup.guard EffectGroup.Guard) turns s) : Ordered s ∧ Once s := by
  refine h.invariant (fun s => Ordered s ∧ Once s) (fun s hs => ?_) (fun s a t hi hs => ?_)
  · cases hs
    exact ⟨ordered_init, once_init⟩
  · exact ⟨ordered_step hi.1 hi.2 hs.1 hs.2, once_step hi.2 hs.2⟩

theorem offset_rises {s t : EffectGroup} {a : EffectTurn} (ho : Ordered s) (h : Once s)
    (hg : s.Guard a) (hs : s.act a = some t) {v : Nat} (hv : s.offset = some v) :
    ∃ w, t.offset = some w ∧ v ≤ w := by
  cases turned h.sound hs with
  | member i m _ _ => exact ⟨v, hv, Nat.le_refl v⟩
  | ran i m x p _ _ _ => exact ⟨v, hv, Nat.le_refl v⟩
  | rebalanced owner => exact ⟨v, hv, Nat.le_refl v⟩
  | accepted i x hx hst hgr _ =>
    have hle := (ho.below_accepted hx hst hgr (hg x hx)).current_le hv
    unfold EffectGroup.offset at hv ⊢
    cases hcom : x.write.isCommit with
    | true => exact ⟨x.write.offset, rfl, hle⟩
    | false => exact ⟨v, hv, Nat.le_refl v⟩
  | resolved entry keep => exact ho.rising.le_resolve entry keep hv

/-- `commitBeforeEffect` returns true at most once for each record, in every run. The group offset
never falls in the runs in which the broker takes no write below a commit of the same assignment
whose receipt was lost. -/
theorem effects_once_offset_rising (turns : List EffectTurn) :
    (∀ s, Reach effectGroup turns s → s.ran.Nodup) ∧
      ∀ s a t, Reach (effectGroup.guard EffectGroup.Guard) turns s →
        (effectGroup.guard EffectGroup.Guard).step s a t →
        ∀ v, s.offset = some v → ∃ w, t.offset = some w ∧ v ≤ w := by
  refine ⟨fun s h => (reach_once h).nodup, fun s a t h hs v hv => ?_⟩
  obtain ⟨ho, honce⟩ := reach_ordered h
  exact offset_rises ho honce hs.1 hs.2 hv

/-- A turn, where the guard allows it. -/
def EffectGroup.guarded (s : EffectGroup) (a : EffectTurn) : Option EffectGroup :=
  match a with
  | .accept i =>
    if (s.members i).sending.all (fun x => (s.members i).doubt ≤ x.write.offset) then
      s.act (.accept i)
    else none
  | a => s.act a

theorem EffectGroup.guarded_step (s : EffectGroup) (a : EffectTurn) (t : EffectGroup)
    (h : s.guarded a = some t) : (effectGroup.guard EffectGroup.Guard).step s a t := by
  unfold EffectGroup.guarded at h
  split at h
  · split at h
    · rename_i hall
      refine ⟨fun x hx => ?_, h⟩
      rw [Option.mem_def] at hx
      simpa [hx] using hall
    · cases h
  · rename_i hne
    refine ⟨?_, h⟩
    unfold EffectGroup.Guard
    split
    · exact absurd rfl (hne _)
    · trivial

/-- The effect of record 0 runs at member 0; then the partition moves, and member 1 commits
record 1. -/
theorem effects_once_offset_rising_moved :
    ∃ s t : EffectGroup, s.ran = [0] ∧ s.ran.Nodup ∧ s.offset = some 1 ∧ t.offset = some 2 ∧
      ∃ w, t.offset = some w ∧ 1 ≤ w := by
  let turns : List EffectTurn :=
    [.rebalance (some 0), .joined 0 1, .seed 0 0, .assign 0 0, .deliver 0 0, .callEffect 0,
      .acquireEffect 0, .accept 0, .acknowledge 0, .settle 0 true, .rebalance (some 1),
      .joined 1 2, .seed 1 0, .assign 1 1, .deliver 1 1, .callEffect 1, .acquireEffect 1]
  have hrun : (turns.foldlM EffectGroup.guarded {}).bind (fun s =>
      (s.guarded (.accept 1)).map (fun t => (s.ran, s.offset, t.offset))) =
        some ([0], some 1, some 2) := by decide
  obtain ⟨s, hs, hrest⟩ := Option.bind_eq_some_iff.mp hrun
  obtain ⟨t, ht, heq⟩ := Option.map_eq_some_iff.mp hrest
  simp only [Prod.mk.injEq] at heq
  have hreach := (Reach.init rfl).foldlM EffectGroup.guarded_step turns hs
  have hstep := EffectGroup.guarded_step s _ t ht
  exact ⟨s, t, heq.1, (effects_once_offset_rising _).1 s hreach.of_guard, heq.2.1, heq.2.2,
    (effects_once_offset_rising _).2 s _ t hreach hstep 1 heq.2.1⟩

/-- The receipt of the commit before record 0's effect is lost; a publication of the same
assignment then writes the offset that the reader still has, and the group offset falls to 0. -/
theorem publication_regresses_offset :
    ¬ ((∀ turns s, Reach effectGroup turns s → s.ran.Nodup) ∧
      ∀ turns s a t, Reach effectGroup turns s → effectGroup.step s a t →
        ∀ v, s.offset = some v → ∃ w, t.offset = some w ∧ v ≤ w) := by
  intro h
  let turns : List EffectTurn :=
    [.rebalance (some 0), .joined 0 1, .seed 0 0, .assign 0 0, .deliver 0 0, .callEffect 0,
      .acquireEffect 0, .accept 0, .lose 0, .publish 0, .acquire 0, .offer 0, .accept 0]
  have hrun : (turns.foldlM EffectGroup.act {}).bind (fun s =>
      (s.act (.resolve 0 true)).map (fun t => (s.offset, t.offset))) =
        some (some 1, some 0) := by decide
  obtain ⟨s, hs, hrest⟩ := Option.bind_eq_some_iff.mp hrun
  obtain ⟨t, ht, heq⟩ := Option.map_eq_some_iff.mp hrest
  simp only [Prod.mk.injEq] at heq
  have hreach := (Reach.init rfl).foldlM (fun _ _ _ => id) turns hs (S := effectGroup)
  obtain ⟨w, hw, hle⟩ := h.2 _ s _ t hreach ht 1 heq.1
  rw [heq.2] at hw
  cases hw
  exact absurd hle (by omega)

end EventLog
end PiCloud
