import PiCloud.EventLog.MemberTurns

/-!
# EventLog.EffectDispatch

The commit before an effect, over all members and generations.

* `Kept`: once an effect may run, the broker, the caches and the writes on their way are past it.
* `Once`: the invariant, and `reach_once` for every run.
-/

namespace PiCloud
namespace EventLog

open Lib
open Member (Sound)

def Holds (m : Member) (p : Nat) : Prop :=
  ∃ x ∈ m.sending, x.stage = .accepted ∧ x.write = .effect p

/-- The effect of record `p` was let run, or will be when the receipt arrives. -/
def Taken (s : EffectGroup) (p : Nat) : Prop := p ∈ s.ran ∨ ∃ i, Holds (s.members i) p

/-- Generations have one owner, and a member writes in those it owned. -/
structure Fits (s : EffectGroup) (i : Nat) (m : Member) : Prop where
  group : ∀ g ∈ m.group, g ≤ s.generation ∧ s.owners g = some i
  sending : ∀ x ∈ m.sending, x.group ≤ s.generation ∧ s.owners x.group = some i

/-- Nothing that can still be taken leads back to record `p`. -/
structure Kept (s : EffectGroup) (p : Nat) : Prop where
  log : Register.AtLeast (p + 1) s.log
  live : ∀ i, (s.members i).group = some s.generation → ∀ c ∈ (s.members i).committed,
    p < c ∨ Holds (s.members i) p
  flight : ∀ i, ∀ x ∈ (s.members i).sending, x.stage ≠ .accepted → x.group = s.generation →
    p < x.write.offset ∧ (x.write.isCommit → p + 1 < x.write.offset)

structure Once (s : EffectGroup) : Prop where
  sound : ∀ i, Sound (s.members i)
  fits : ∀ i, Fits s i (s.members i)
  kept : ∀ p, Taken s p → Kept s p
  fresh : ∀ i p, Holds (s.members i) p → p ∉ s.ran
  apart : ∀ i j p, Holds (s.members i) p → Holds (s.members j) p → i = j
  nodup : s.ran.Nodup

theorem setMember_members (s : EffectGroup) (i j : Nat) (m : Member) :
    (s.setMember i m).members j = if j = i then m else s.members j :=
  Function.update_apply ..

@[simp] theorem setMember_self_members (s : EffectGroup) (i : Nat) (m : Member) :
    (s.setMember i m).members i = m := by
  rw [setMember_members, if_pos rfl]

theorem setMember_of_ne (s : EffectGroup) {i j : Nat} (m : Member) (h : j ≠ i) :
    (s.setMember i m).members j = s.members j := by
  rw [setMember_members, if_neg h]

theorem not_holds_of_none {m : Member} (h : m.sending = none) (p : Nat) : ¬ Holds m p := by
  rintro ⟨x, hx, _⟩
  rw [h] at hx
  cases hx

theorem Holds.sending {m : Member} {x : Sending} {p : Nat} (h : Holds m p)
    (hx : m.sending = some x) : x.stage = .accepted ∧ x.write = .effect p := by
  obtain ⟨y, hy, h'⟩ := h
  cases hx.symm.trans hy
  exact h'

theorem Holds.of_sending_eq {m m' : Member} {p : Nat} (h : Holds m p)
    (he : m'.sending = m.sending) : Holds m' p := by
  obtain ⟨x, hx, h'⟩ := h
  exact ⟨x, he ▸ hx, h'⟩

theorem Change.holds {s : EffectGroup} {i : Nat} {m m' : Member} (h : Change s i m m') {p : Nat}
    (hp : Holds m' p) : Holds m p := by
  cases h with
  | quiet _ _ _ hs _ => exact hp.of_sending_eq hs.symm
  | revoked _ hs _ _ => exact hp.of_sending_eq hs.symm
  | joined _ _ hs _ _ _ _ => exact hp.of_sending_eq hs.symm
  | seeded _ _ hs _ _ _ => exact hp.of_sending_eq hs.symm
  | started x _ _ _ _ _ _ hx _ _ hst _ _ _ _ => exact absurd (hp.sending hx).1 hst
  | restaged x stage _ _ _ _ _ hx _ hst => exact absurd (hp.sending hx).1 hst
  | released x _ _ _ _ hn _ _ => exact absurd hp (not_holds_of_none hn p)
  | received x hr _ => exact absurd hp (not_holds_of_none hr.free p)
  | crashed he => exact absurd hp (not_holds_of_none (he ▸ rfl) p)

theorem Change.fits {s : EffectGroup} {i : Nat} {m m' : Member} (h : Change s i m m')
    (hf : Fits s i m) : Fits s i m' := by
  cases h with
  | quiet _ hg _ hs _ => exact ⟨hg ▸ hf.group, hs ▸ hf.sending⟩
  | revoked _ hs hg _ => exact ⟨hg ▸ hf.group, hs ▸ hf.sending⟩
  | joined g _ hs hg hle how _ =>
    refine ⟨fun g' hmem => ?_, hs ▸ hf.sending⟩
    cases hg.symm.trans hmem
    exact ⟨hle, how⟩
  | seeded _ hg hs _ _ _ => exact ⟨hg ▸ hf.group, hs ▸ hf.sending⟩
  | started x _ _ hg _ _ _ hx _ hxg _ _ _ _ _ =>
    refine ⟨hg ▸ hf.group, fun y hy => ?_⟩
    cases hx.symm.trans hy
    exact hf.group _ hxg
  | restaged x stage _ hg _ _ hxm hx _ _ =>
    refine ⟨hg ▸ hf.group, fun y hy => ?_⟩
    cases hx.symm.trans hy
    exact hf.sending x hxm
  | released x _ hg _ _ hn _ _ => exact ⟨hg ▸ hf.group, by simp [hn]⟩
  | received x hr _ => exact ⟨hr.group ▸ hf.group, by simp [hr.free]⟩
  | crashed he => exact ⟨by simp [he], by simp [he]⟩

theorem Change.live {s : EffectGroup} {i : Nat} {m : Member}
    (h : Change s i (s.members i) m) (hsound : Sound (s.members i)) {p : Nat} (hk : Kept s p)
    (hheld : Holds (s.members i) p → Holds m p) (hg : m.group = some s.generation) {c : Nat}
    (hc : m.committed = some c) : p < c ∨ Holds m p := by
  cases h with
  | quiet _ hgr hcm _ _ =>
    exact (hk.live i (hgr.symm.trans hg) c (hcm.symm.trans hc)).imp_right hheld
  | revoked hn _ _ _ => cases hn.symm.trans hc
  | joined _ hn _ _ _ _ _ => cases hn.symm.trans hc
  | seeded low _ _ _ _ hcm =>
    obtain ⟨v, hv, hle⟩ := hk.log.current
    rw [EffectGroup.offset, hv, hc] at hcm
    simp only [Option.getD_some, Option.some.injEq] at hcm
    omega
  | started _ _ _ hgr hcm _ _ _ _ _ _ _ _ _ _ =>
    exact (hk.live i (hgr.symm.trans hg) c (hcm.symm.trans hc)).imp_right hheld
  | restaged _ _ _ hgr hcm _ _ _ _ _ =>
    exact (hk.live i (hgr.symm.trans hg) c (hcm.symm.trans hc)).imp_right hheld
  | released _ _ hgr hcm _ _ _ _ =>
    exact (hk.live i (hgr.symm.trans hg) c (hcm.symm.trans hc)).imp_right hheld
  | received x hr hne =>
    obtain ⟨c₀, hc₀, hlt⟩ := hsound.above x hr.sending hr.current hr.commit
    cases hr.committed.symm.trans hc
    cases hk.live i (hr.group.symm.trans hg) c₀ hc₀ with
    | inl h => exact .inl (Nat.lt_trans h hlt)
    | inr h => exact absurd (h.sending hr.sending).2 (hne p)
  | crashed he => simp [he] at hg

theorem Change.flight {s : EffectGroup} {i : Nat} {m : Member}
    (h : Change s i (s.members i) m) {p : Nat} (hk : Kept s p) {x : Sending}
    (hx : m.sending = some x) (hst : x.stage ≠ .accepted) (hg : x.group = s.generation) :
    p < x.write.offset ∧ (x.write.isCommit → p + 1 < x.write.offset) := by
  cases h with
  | quiet _ _ _ hs _ => exact hk.flight i x (hs.symm.trans hx) hst hg
  | revoked _ hs _ _ => exact hk.flight i x (hs.symm.trans hx) hst hg
  | joined _ _ hs _ _ _ _ => exact hk.flight i x (hs.symm.trans hx) hst hg
  | seeded _ _ hs _ _ _ => exact hk.flight i x (hs.symm.trans hx) hst hg
  | started y c _ _ _ _ hn hy _ hyg _ hc hle hlt _ =>
    cases hy.symm.trans hx
    have hpc : p < c := by
      cases hk.live i (hg ▸ hyg) c hc with
      | inl h => exact h
      | inr h => exact absurd h (not_holds_of_none hn p)
    exact ⟨Nat.lt_of_lt_of_le hpc hle, fun hcm => Nat.lt_of_le_of_lt hpc (hlt hcm)⟩
  | restaged y stage _ _ _ _ hym hy hyst _ =>
    cases hy.symm.trans hx
    exact hk.flight i y hym hyst hg
  | released _ _ _ _ _ hn _ _ => cases hn.symm.trans hx
  | received _ hr _ => cases hr.free.symm.trans hx
  | crashed he => simp [he] at hx

theorem Fits.of_eq {s t : EffectGroup} {i : Nat} {m : Member} (h : Fits s i m)
    (hg : t.generation = s.generation) (ho : t.owners = s.owners) : Fits t i m := by
  refine ⟨fun g hm => ?_, fun x hx => ?_⟩
  · rw [hg, ho]
    exact h.group g hm
  · rw [hg, ho]
    exact h.sending x hx

theorem Once.unique {s : EffectGroup} (h : Once s) {i j : Nat}
    (hi : (s.members i).group = some s.generation ∨
      ∃ x ∈ (s.members i).sending, x.group = s.generation)
    (hj : (s.members j).group = some s.generation ∨
      ∃ x ∈ (s.members j).sending, x.group = s.generation) : i = j := by
  have how : ∀ k, ((s.members k).group = some s.generation ∨
      ∃ x ∈ (s.members k).sending, x.group = s.generation) →
      s.owners s.generation = some k := by
    intro k hk
    cases hk with
    | inl h' => exact ((h.fits k).group _ h').2
    | inr h' =>
      obtain ⟨x, hx, hg⟩ := h'
      exact hg ▸ ((h.fits k).sending x hx).2
  exact Option.some.inj ((how i hi).symm.trans (how j hj))

theorem once_member {s : EffectGroup} (h : Once s) {i : Nat} {m : Member} (hm : Sound m)
    (hc : Change s i (s.members i) m) : Once (s.setMember i m) := by
  have hholds : ∀ j p, Holds ((s.setMember i m).members j) p → Holds (s.members j) p := by
    intro j p hp
    by_cases hj : j = i
    · subst hj
      rw [setMember_self_members] at hp
      exact hc.holds hp
    · rwa [setMember_of_ne s m hj] at hp
  have htaken : ∀ p, Taken (s.setMember i m) p → Taken s p := by
    intro p hp
    cases hp with
    | inl hp => exact .inl hp
    | inr hp =>
      obtain ⟨j, hj⟩ := hp
      exact .inr ⟨j, hholds j p hj⟩
  refine
    { sound := fun j => ?_
      fits := fun j => ?_
      kept := fun p hp => ?_
      fresh := fun j p hp => h.fresh j p (hholds j p hp)
      apart := fun j k p hj hk => h.apart j k p (hholds j p hj) (hholds k p hk)
      nodup := h.nodup }
  · rw [setMember_members]
    split
    · exact hm
    · exact h.sound j
  · by_cases hj : j = i
    · subst hj
      rw [setMember_self_members]
      exact (hc.fits (h.fits j)).of_eq rfl rfl
    · rw [setMember_of_ne s m hj]
      exact (h.fits j).of_eq rfl rfl
  · have hk := h.kept p (htaken p hp)
    -- a receipt that is given up on is expected by nobody else, and its effect did not run
    have hheld : Holds (s.members i) p → Holds m p := by
      intro hi
      cases hp with
      | inl hran => exact absurd hran (h.fresh i p hi)
      | inr hp =>
        obtain ⟨j, hj⟩ := hp
        have := h.apart j i p (hholds j p hj) hi
        subst this
        rwa [setMember_self_members] at hj
    refine ⟨hk.log, fun j hg c hcm => ?_, fun j x hx hst hg => ?_⟩
    · by_cases hj : j = i
      · subst hj
        rw [setMember_self_members] at hg hcm ⊢
        exact hc.live (h.sound j) hk hheld hg hcm
      · rw [setMember_of_ne s m hj] at hg hcm ⊢
        exact hk.live j hg c hcm
    · by_cases hj : j = i
      · subst hj
        rw [setMember_self_members] at hx
        exact hc.flight hk hx hst hg
      · rw [setMember_of_ne s m hj] at hx
        exact hk.flight j x hx hst hg

theorem once_ran {s : EffectGroup} (h : Once s) {i : Nat} {m : Member} {x : Sending} {p : Nat}
    (hm : Sound m) (hr : Received (s.members i) m x) (hp : x.write = .effect p) :
    Once ((s.setMember i m).runEffect p) := by
  have hi : Holds (s.members i) p := ⟨x, hr.sending, hr.accepted, hp⟩
  have hmem : ∀ j, ((s.setMember i m).runEffect p).members j =
      if j = i then m else s.members j := fun j => setMember_members s i j m
  have hholds : ∀ j q, Holds (((s.setMember i m).runEffect p).members j) q →
      j ≠ i ∧ Holds (s.members j) q := by
    intro j q hq
    rw [hmem] at hq
    split at hq
    · exact absurd hq (not_holds_of_none hr.free q)
    · rename_i hj
      exact ⟨hj, hq⟩
  have htaken : ∀ q, Taken ((s.setMember i m).runEffect p) q → Taken s q := by
    intro q hq
    cases hq with
    | inl hq =>
      cases List.mem_cons.mp hq with
      | inl he => exact .inr ⟨i, he ▸ hi⟩
      | inr hq => exact .inl hq
    | inr hq =>
      obtain ⟨j, hj⟩ := hq
      exact .inr ⟨j, (hholds j q hj).2⟩
  refine
    { sound := fun j => ?_
      fits := fun j => ?_
      kept := fun q hq => ?_
      fresh := fun j q hq => ?_
      apart := fun j k q hj hk => h.apart j k q (hholds j q hj).2 (hholds k q hk).2
      nodup := List.nodup_cons.mpr ⟨h.fresh i p hi, h.nodup⟩ }
  · rw [hmem]
    split
    · exact hm
    · exact h.sound j
  · rw [hmem]
    split
    · rename_i hj
      subst hj
      exact ⟨hr.group ▸ (h.fits j).group, by simp [hr.free]⟩
    · exact (h.fits j).of_eq rfl rfl
  · have hk := h.kept q (htaken q hq)
    refine ⟨hk.log, fun j hg c hcm => ?_, fun j y hy hst hg => ?_⟩
    · rw [hmem] at hg hcm ⊢
      by_cases hj : j = i
      · subst hj
        rw [if_pos rfl] at hg hcm ⊢
        obtain ⟨c₀, hc₀, hlt⟩ := (h.sound j).above x hr.sending hr.current hr.commit
        cases hr.committed.symm.trans hcm
        refine .inl ?_
        cases hk.live j (hr.group.symm.trans hg) c₀ hc₀ with
        | inl hlt' => exact Nat.lt_trans hlt' hlt
        | inr hq =>
          rw [(hq.sending hr.sending).2]
          exact Nat.lt_succ_self q
      · rw [if_neg hj] at hg hcm ⊢
        exact hk.live j hg c hcm
    · rw [hmem] at hy
      split at hy
      · rw [hr.free] at hy
        cases hy
      · exact hk.flight j y hy hst hg
  · obtain ⟨hne, hq⟩ := hholds j q hq
    intro hran
    cases List.mem_cons.mp hran with
    | inl he => exact hne (h.apart j i p (he ▸ hq) hi)
    | inr hran => exact h.fresh j q hq hran

theorem once_rebalanced {s : EffectGroup} (h : Once s) (owner : Option Nat) :
    Once { s with
      generation := s.generation + 1
      owners := Function.update s.owners (s.generation + 1) owner } := by
  refine { h with fits := fun i => ⟨fun g hg => ?_, fun x hx => ?_⟩, kept := fun p hp => ?_ }
  · obtain ⟨hle, how⟩ := (h.fits i).group g hg
    dsimp only
    rw [Function.update_of_ne (by omega)]
    exact ⟨Nat.le_succ_of_le hle, how⟩
  · obtain ⟨hle, how⟩ := (h.fits i).sending x hx
    dsimp only
    rw [Function.update_of_ne (by omega)]
    exact ⟨Nat.le_succ_of_le hle, how⟩
  · refine ⟨(h.kept p hp).log, fun i hg => ?_, fun i x hx _ hg => ?_⟩
    · exact absurd ((h.fits i).group _ hg).1 (Nat.not_succ_le_self _)
    · have := ((h.fits i).sending x hx).1
      rw [hg] at this
      exact absurd this (Nat.not_succ_le_self _)

theorem once_accepted {s : EffectGroup} (h : Once s) {i : Nat} {x : Sending}
    (hx : (s.members i).sending = some x) (hst : x.stage = .inFlight)
    (hg : x.group = s.generation)
    (hm : Sound { s.members i with sending := some { x with stage := .accepted } }) :
    Once { s.setMember i { s.members i with sending := some { x with stage := .accepted } } with
      log :=
        { value := x.write.offset
          status := if x.write.isCommit then .taken else .undecided } :: s.log } := by
  let m : Member := { s.members i with sending := some { x with stage := .accepted } }
  have hmem : ∀ j, (s.setMember i m).members j = if j = i then m else s.members j :=
    fun j => setMember_members s i j m
  have hi : ∀ p, ¬ Holds (s.members i) p := by
    intro p hp
    rw [(hp.sending hx).1] at hst
    cases hst
  have hnew : ∀ p, Holds m p ↔ x.write = .effect p := by
    intro p
    constructor
    · intro hp
      exact (hp.sending rfl).2
    · intro hw
      exact ⟨_, rfl, rfl, hw⟩
  have hholds : ∀ j p, Holds ((s.setMember i m).members j) p →
      (j = i ∧ x.write = .effect p) ∨ (j ≠ i ∧ Holds (s.members j) p) := by
    intro j p hp
    rw [hmem] at hp
    split at hp
    · rename_i hj
      exact .inl ⟨hj, (hnew p).mp hp⟩
    · rename_i hj
      exact .inr ⟨hj, hp⟩
  -- the commit is past everything that was taken before
  have hpast : ∀ p, Taken s p →
      p < x.write.offset ∧ (x.write.isCommit → p + 1 < x.write.offset) :=
    fun p hp => (h.kept p hp).flight i x hx (by simp [hst]) hg
  have hfresh : ∀ p, x.write = .effect p → ¬ Taken s p := by
    intro p hw hp
    have := (hpast p hp).2 (by simp [hw, Write.isCommit])
    rw [hw] at this
    exact Nat.lt_irrefl _ this
  have htaken : ∀ p, Taken { s.setMember i m with
      log := { value := x.write.offset
               status := if x.write.isCommit then .taken else .undecided } :: s.log } p →
      x.write = .effect p ∨ Taken s p := by
    intro p hp
    cases hp with
    | inl hp => exact .inr (.inl hp)
    | inr hp =>
      obtain ⟨j, hj⟩ := hp
      cases hholds j p hj with
      | inl h' => exact .inl h'.2
      | inr h' => exact .inr (.inr ⟨j, h'.2⟩)
  refine
    { sound := fun j => ?_
      fits := fun j => ?_
      kept := fun p hp => ⟨?_, fun j hgj c hc => ?_, fun j y hy hys hyg => ?_⟩
      fresh := fun j p hp => ?_
      apart := fun j k p hj hk => ?_
      nodup := h.nodup }
  · dsimp only
    rw [hmem]
    split
    · exact hm
    · exact h.sound j
  · dsimp only
    rw [hmem]
    by_cases hj : j = i
    · subst hj
      rw [if_pos rfl]
      refine Fits.of_eq (s := s) ⟨(h.fits j).group, fun y hy => ?_⟩ rfl rfl
      cases hy
      exact (h.fits j).sending x hx
    · rw [if_neg hj]
      exact (h.fits j).of_eq rfl rfl
  · have hlt : p < x.write.offset := by
      cases htaken p hp with
      | inl hw =>
        rw [hw]
        exact Nat.lt_succ_self p
      | inr hp => exact (hpast p hp).1
    cases hcm : x.write.isCommit with
    | true =>
      rw [if_pos rfl]
      exact .take _ hlt
    | false =>
      rw [if_neg (by rintro ⟨⟩)]
      cases htaken p hp with
      | inl hw => simp [hw, Write.isCommit] at hcm
      | inr hp => exact (h.kept p hp).log.open hlt
  · dsimp only at hgj hc ⊢
    rw [hmem] at hgj hc ⊢
    cases htaken p hp with
    | inl hw =>
      have hj : j = i := by
        refine h.unique (.inl ?_) (.inr ⟨x, hx, hg⟩)
        split at hgj
        · rename_i hj
          exact hj ▸ hgj
        · exact hgj
      rw [if_pos hj]
      exact .inr ((hnew p).mpr hw)
    | inr hps =>
      by_cases hj : j = i
      · rw [if_pos hj] at hgj hc ⊢
        have hlive := (h.kept p hps).live i hgj c hc
        exact .inl (hlive.resolve_right (hi p))
      · rw [if_neg hj] at hgj hc ⊢
        exact (h.kept p hps).live j hgj c hc
  · dsimp only at hy
    rw [hmem] at hy
    split at hy
    · cases hy
      exact absurd rfl hys
    · rename_i hj
      cases htaken p hp with
      | inl _ => exact absurd (h.unique (.inr ⟨y, hy, hyg⟩) (.inr ⟨x, hx, hg⟩)) hj
      | inr hp => exact (h.kept p hp).flight j y hy hys hyg
  · cases hholds j p hp with
    | inl h' => exact fun hran => hfresh p h'.2 (.inl hran)
    | inr h' => exact h.fresh j p h'.2
  · cases hholds j p hj with
    | inl h₁ =>
      cases hholds k p hk with
      | inl h₂ => exact h₁.1.trans h₂.1.symm
      | inr h₂ => exact absurd (.inr ⟨k, h₂.2⟩) (hfresh p h₁.2)
    | inr h₁ =>
      cases hholds k p hk with
      | inl h₂ => exact absurd (.inr ⟨j, h₁.2⟩) (hfresh p h₂.2)
      | inr h₂ => exact h.apart j k p h₁.2 h₂.2

theorem once_resolved {s : EffectGroup} (h : Once s) (entry : Nat) (keep : Bool) :
    Once { s with log := Register.resolve s.log entry keep } :=
  { h with
    fits := fun i => (h.fits i).of_eq rfl rfl
    kept := fun p hp =>
      have hk := h.kept p hp
      ⟨hk.log.resolve entry keep, hk.live, hk.flight⟩ }

theorem once_step {s t : EffectGroup} {a : EffectTurn} (h : Once s) (hs : s.act a = some t) :
    Once t := by
  cases turned h.sound hs with
  | member i m hm hc => exact once_member h hm hc
  | ran i m x p hm hr hp => exact once_ran h hm hr hp
  | rebalanced owner => exact once_rebalanced h owner
  | accepted i x hx hst hg hm => exact once_accepted h hx hst hg hm
  | resolved entry keep => exact once_resolved h entry keep

theorem once_init : Once {} where
  sound _ := Member.sound_empty
  fits _ := ⟨nofun, nofun⟩
  kept p hp := by
    cases hp with
    | inl hp => cases hp
    | inr hp =>
      obtain ⟨i, x, hx, _⟩ := hp
      cases hx
  fresh _ _ hp := by
    obtain ⟨x, hx, _⟩ := hp
    cases hx
  apart _ _ _ hp := by
    obtain ⟨x, hx, _⟩ := hp
    cases hx
  nodup := List.nodup_nil

theorem reach_once {turns : List EffectTurn} {s : EffectGroup} (h : Reach effectGroup turns s) :
    Once s := by
  refine h.invariant Once (fun s hs => ?_) (fun s a t hi hs => once_step hi hs)
  cases hs
  exact once_init

end EventLog
end PiCloud
