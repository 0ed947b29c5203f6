import PiCloud.Sandbox.AgentRunReaping
import Mathlib.Data.List.Dedup

/-!
# Sandbox.AgentRunFencing

Admissions, and what holds in every run of the supervisor.

* `Inv.accept`: an admission fences what it replaces.
* `orderly`: an admission that replaces an assignment of its own family, alone at its epoch.
* `agent_run_fencing`: the contract, one live assignment a session, and one a family within the capacity
  where every admission is orderly.
-/

namespace PiCloud
namespace Sandbox

open Lib

namespace Supervisor

variable {s t : Supervisor}

/-! ### Admission -/

theorem Inv.assign {closed : Prop} (hi : s.Inv closed) (hopen : ¬ closed) {c : ExecuteTurnCommand}
    (hstale : s.isStaleExecution c = false) (hnew : s.byExecution.get c.executionReference = none)
    (hreplaced : ∀ i, s.currentBySession.get c.sessionId = some i → ¬ (s.assignments i).Live)
    (hprepared : ∀ i < s.fresh, (s.assignments i).state = .prepared →
      (s.assignments i).command.family = c.family → ¬ Fences c (s.assignments i).command) :
    (s.assign c).Inv closed := by
  have hunfenced : ∀ d ∈ admittedSince s.log c.family, ¬ Fences d.2 c := by
    intro d hd
    obtain ⟨head, hhead⟩ : ∃ head, (admittedSince s.log c.family).head? = some head := by
      cases h : (admittedSince s.log c.family).head? with
      | none =>
        rw [List.head?_eq_none_iff.mp h] at hd
        cases hd
      | some head => exact ⟨head, rfl⟩
    refine not_fences_trans (hi.newest _ head hhead d hd) fun h => ?_
    rw [(hi.isStale c).mpr ⟨head, hhead, h⟩] at hstale
    cases hstale
  have hself : ¬ Fences c c := by
    unfold Fences
    omega
  have hold : ∀ i < s.fresh, Function.update s.assignments s.fresh { command := c } i =
      s.assignments i := fun i hlt => Function.update_of_ne (Nat.ne_of_lt hlt) ..
  have hlog : ∀ f, admittedSince (s.log ++ [Event.admitted s.fresh c]) f =
      if c.family = f then (s.fresh, c) :: admittedSince s.log f else admittedSince s.log f :=
    fun f => admittedSince_snoc s.log f _
  have hkept : ∀ r i, s.byExecution.get r = some i →
      (s.byExecution.set c.executionReference s.fresh).get r = some i := by
    intro r i hr
    rw [InsertionMap.get_set_ne]
    · exact hr
    · rintro rfl
      rw [hnew] at hr
      cases hr
  unfold Supervisor.assign
  refine ⟨?_, ?_, ?_, ?_, ?_, ?_, ?_, ?_, ?_, ?_, ?_, ?_, hi.contract.snoc trivial, ?_⟩
  · intro k i hk
    dsimp only at hk ⊢
    rw [InsertionMap.get_set] at hk
    split at hk
    · rename_i hk'
      cases hk
      rw [Function.update_self]
      exact ⟨Nat.lt_succ_self _, hk'.symm, rfl, InsertionMap.get_set_self ..⟩
    · obtain ⟨hlt, hsession, hsettled, hget⟩ := hi.current k i hk
      rw [hold i hlt]
      exact ⟨Nat.lt_succ_of_lt hlt, hsession, hsettled, hkept _ i hget⟩
  · intro r i hr
    dsimp only at hr ⊢
    rw [InsertionMap.get_set] at hr
    split at hr
    · rename_i hr'
      cases hr
      rw [Function.update_self, hlog, if_pos rfl]
      exact ⟨Nat.lt_succ_self _, hr'.symm, List.mem_cons_self⟩
    · obtain ⟨hlt, href, hmem⟩ := hi.retained r i hr
      rw [hold i hlt, hlog]
      refine ⟨Nat.lt_succ_of_lt hlt, href, ?_⟩
      split
      · exact List.mem_cons_of_mem _ hmem
      · exact hmem
  · intro i hlt hl
    dsimp only at hlt hl ⊢
    obtain hlt | rfl := Nat.lt_succ_iff_lt_or_eq.mp hlt
    · rw [hold i hlt] at hl ⊢
      have hget := hi.live i hlt hl
      rw [InsertionMap.get_set_ne]
      · exact hget
      · intro heq
        rw [heq] at hget
        exact hreplaced i hget hl
    · rw [Function.update_self]
      exact InsertionMap.get_set_self ..
  · intro i hlt
    dsimp only at hlt ⊢
    obtain hlt | rfl := Nat.lt_succ_iff_lt_or_eq.mp hlt
    · rw [hold i hlt]
      exact hi.wf i hlt
    · rw [Function.update_self]
      refine ⟨fun _ => ⟨rfl, rfl⟩, ?_, by rintro ⟨⟩, fun _ => by simp⟩
      rintro (h | h) <;> cases h
  · intro i hlt hp
    dsimp only at hlt hp ⊢
    refine ⟨hopen, fun d hd => ?_⟩
    rw [hlog] at hd
    obtain hlt | rfl := Nat.lt_succ_iff_lt_or_eq.mp hlt
    · rw [hold i hlt] at hp hd ⊢
      split at hd
      · rename_i hfamily
        obtain rfl | hd := List.mem_cons.mp hd
        · exact hprepared i hlt hp hfamily.symm
        · exact (hi.ready i hlt hp).2 d hd
      · exact (hi.ready i hlt hp).2 d hd
    · rw [Function.update_self] at hd ⊢
      rw [if_pos rfl] at hd
      obtain rfl | hd := List.mem_cons.mp hd
      · exact hself
      · exact hunfenced d hd
  · intro f
    dsimp only
    rw [hlog, InsertionMap.get_set]
    by_cases hf : f = c.family
    · rw [if_pos hf, if_pos hf.symm]
      rfl
    · rw [if_neg hf, if_neg fun h => hf h.symm]
      exact hi.owner f
  · intro f d hd e he
    dsimp only at hd he
    rw [hlog] at hd he
    split at hd
    · rename_i hf
      rw [if_pos hf] at he
      cases hd
      obtain rfl | he := List.mem_cons.mp he
      · exact hself
      · exact hunfenced e (hf ▸ he)
    · rename_i hf
      rw [if_neg hf] at he
      exact hi.newest f d hd e he
  · intro k
    dsimp only
    rw [currentOf_snoc, hi.tracked, InsertionMap.get_set]
    by_cases hk : k = c.sessionId
    · rw [if_pos hk]
      exact if_pos hk.symm
    · rw [if_neg hk]
      exact if_neg fun h => hk h.symm
  · exact fun h => hi.retired (mem_of_mem_snoc h (by rintro ⟨⟩))
  · intro j d h
    have h := mem_of_mem_snoc h (by rintro ⟨⟩)
    obtain ⟨hj, hd, hpromise, hkeep⟩ := hi.started j d h
    dsimp only
    rw [hold j hj]
    refine ⟨Nat.lt_succ_of_lt hj, hd, hpromise, ?_⟩
    obtain ⟨retired, hreaped⟩ | hget := hkeep
    · exact .inl ⟨retired, List.mem_append_left _ hreaped⟩
    · exact .inr (hkept _ j hget)
  · intro i hlt hidle hrunning
    dsimp only at hlt hidle hrunning
    obtain hlt | rfl := Nat.lt_succ_iff_lt_or_eq.mp hlt
    · rw [hold i hlt] at hidle hrunning
      exact List.mem_append_left _ (hi.ended i hlt hidle hrunning)
    · rw [Function.update_self] at hidle
      exact absurd rfl hidle
  · intro j d q h
    have h := mem_of_mem_snoc h (by rintro ⟨⟩)
    obtain ⟨hj, hle⟩ := hi.published j d q h
    dsimp only
    rw [hold j hj]
    exact ⟨Nat.lt_succ_of_lt hj, hle⟩
  · intro r hr i hmem
    obtain ⟨hlt, hsettled⟩ := hi.reaps r hr i hmem
    dsimp only
    rw [hold i hlt]
    exact ⟨Nat.lt_succ_of_lt hlt, hsettled⟩

theorem Keeps.supersede (c : ExecuteTurnCommand) {i : Nat} (hlt : i < s.fresh) :
    Keeps s (supersede c s i) := by
  unfold Supervisor.supersede
  split
  · split
    · exact .releaseBeforeStart hlt
    · exact .edit (.trans (.revoke _) (.superseded _))
  · exact .refl s

/-- A live assignment that gives way to `c`. -/
def Fenced (c : ExecuteTurnCommand) (s : Supervisor) (i : Nat) : Prop :=
  (s.assignments i).Live ∧ (s.assignments i).command.family = c.family ∧
    (s.assignments i).command.executionReference.fencingToken < c.executionReference.fencingToken

theorem not_fenced_supersede (c : ExecuteTurnCommand) (s : Supervisor) (i : Nat) :
    ¬ Fenced c (supersede c s i) i := by
  intro h
  unfold Supervisor.supersede at h
  split at h
  · split at h
    · rename_i hprepared
      have hl := h.1.1
      unfold releaseBeforeStart at hl
      rw [if_pos hprepared] at hl
      dsimp only at hl
      rw [edit_assignments, if_pos rfl] at hl
      cases hl
    · have hl := h.1.2
      rw [edit_assignments, if_pos rfl] at hl
      obtain hl | hl | hl := hl <;> cases hl
  · rename_i hnot
    exact hnot h.2

theorem Keeps.supersedePrior {closed : Prop} (hi : s.Inv closed) (c : ExecuteTurnCommand) :
    Keeps s (s.supersedePrior c) := by
  unfold Supervisor.supersedePrior
  split
  · refine Keeps.foldl (v := id) (fun p i hmem hp => .supersede c ?_) (.refl s)
    obtain ⟨k, hk⟩ := Supervisor.mem_currents.mp hmem
    exact hp.fresh ▸ (hi.current k i hk).1
  · exact .refl s

theorem supersede_highest (c : ExecuteTurnCommand) (s : Supervisor) (i : Nat) :
    (supersede c s i).highestEpochByFamily = s.highestEpochByFamily := by
  unfold Supervisor.supersede
  split
  · split
    · unfold releaseBeforeStart
      split <;> rfl
    · rfl
  · rfl

theorem supersedePrior_highest (s : Supervisor) (c : ExecuteTurnCommand) :
    (s.supersedePrior c).highestEpochByFamily = s.highestEpochByFamily := by
  have hfold : ∀ (xs : List Nat) (t : Supervisor),
      (xs.foldl (Supervisor.supersede c) t).highestEpochByFamily = t.highestEpochByFamily := by
    intro xs
    induction xs with
    | nil => exact fun _ => rfl
    | cons x xs ih => exact fun t => (ih _).trans (supersede_highest c t x)
  unfold supersedePrior
  split
  · exact hfold ..
  · rfl

theorem Inv.le_highest {closed : Prop} (hi : s.Inv closed) {r : ExecutionReference} {i : Nat}
    (h : s.byExecution.get r = some i) : (s.assignments i).command.executionReference.fencingToken ≤
      s.highestGeneration (s.assignments i).command.family := by
  obtain ⟨_, _, hmem⟩ := hi.retained r i h
  unfold highestGeneration
  rw [hi.owner]
  cases hhead : (admittedSince s.log (s.assignments i).command.family).head? with
  | none =>
    rw [List.head?_eq_none_iff.mp hhead] at hmem
    cases hmem
  | some d =>
    have hnot := hi.newest _ d hhead _ hmem
    simp only [Fences] at hnot
    show _ ≤ d.2.executionReference.fencingToken
    omega

theorem Inv.prior {closed : Prop} (hi : s.Inv closed) {c : ExecuteTurnCommand}
    (hhigher : s.highestGeneration c.family < c.executionReference.fencingToken) {i : Nat}
    (hlt : i < s.fresh) (hfamily : (s.assignments i).command.family = c.family) :
    ¬ ((s.supersedePrior c).assignments i).Live := by
  intro hl
  have hkeeps := Keeps.supersedePrior hi c
  have hlive := hkeeps.live i hl
  have hle := hi.le_highest (hi.current _ _ (hi.live i hlt hlive)).2.2.2
  have hfenced : Fenced c (s.supersedePrior c) i := by
    refine ⟨hl, ?_, ?_⟩
    · rw [hkeeps.command]
      exact hfamily
    · rw [hkeeps.command]
      rw [hfamily] at hle
      exact Nat.lt_of_le_of_lt hle hhigher
  unfold supersedePrior at hfenced
  rw [if_pos hhigher] at hfenced
  refine foldl_clears (s := s) (v := id) (P := Fenced c) ?_ ?_ ?_ (.refl s) i
    (hi.mem_currents hlt hlive) hfenced
  · intro t u x h hx
    exact ⟨h.live x hx.1, h.command x ▸ hx.2.1, h.command x ▸ hx.2.2⟩
  · intro p x hx hp
    obtain ⟨k, hk⟩ := Supervisor.mem_currents.mp hx
    exact .supersede c (hp.fresh ▸ (hi.current k x hk).1)
  · exact fun p x _ _ => not_fenced_supersede c p x

theorem admission_accepted {c : ExecuteTurnCommand} (h : s.admission c = .accepted) :
    s.retiring = false ∧ s.isStaleExecution c = false ∧
      s.byExecution.get c.executionReference = none ∧
      (s.currentBySession.get c.sessionId = none →
        (c.family ∉ s.families → ∀ m, s.maxConcurrentSessions = some m → s.activeSessionCount < m) ∧
          (c.executionReference.fencingToken = s.highestGeneration c.family →
            c.family ∉ s.families)) ∧
      (c.executionReference.fencingToken = s.highestGeneration c.family →
        ∀ i, s.currentBySession.get c.sessionId = some i →
          (s.assignments i).state ∉ [AssignmentState.prepared, .running, .cancelling]) := by
  simp only [admission] at h
  split at h
  · cases h
  · rename_i hretiring
    split at h
    · cases h
    · rename_i hstale
      split at h
      · split at h <;> cases h
      · rename_i hnew
        split at h
        · cases h
        · split at h
          · cases h
          · rename_i hcapacity
            split at h
            · cases h
            · rename_i hroot
              split at h
              · cases h
              · rename_i hlane
                rw [Bool.not_eq_true] at hretiring hstale
                refine ⟨hretiring, hstale, hnew, fun hnone => ⟨fun hfamily m hm => ?_, ?_⟩, ?_⟩
                · by_contra hfull
                  refine hcapacity ⟨hnone, hfamily, ?_⟩
                  rw [hm, Option.any_some]
                  exact decide_eq_true (Nat.not_lt.mp hfull)
                · exact fun hgeneration hfamily => hroot ⟨hnone, hgeneration, hfamily⟩
                · intro hgeneration i hi hstate
                  refine hlane ⟨hgeneration, ?_⟩
                  rw [hi, Option.any_some]
                  exact decide_eq_true hstate

theorem Inv.generation {closed : Prop} (hi : s.Inv closed) {c : ExecuteTurnCommand}
    (hstale : s.isStaleExecution c = false) :
    s.highestGeneration c.family ≤ c.executionReference.fencingToken := by
  unfold highestGeneration
  rw [hi.owner]
  cases hhead : (admittedSince s.log c.family).head? with
  | none => exact Nat.zero_le _
  | some d =>
    show d.2.executionReference.fencingToken ≤ _
    by_contra hlt
    rw [(hi.isStale c).mpr ⟨d, hhead, .inl (Nat.not_le.mp hlt)⟩] at hstale
    cases hstale

theorem accept_eq (s : Supervisor) (c : ExecuteTurnCommand) : ∃ t : Supervisor, s.accept c = t.assign c ∧
    (s.supersedePrior c).Keeps t ∧ t.highestEpochByFamily = s.highestEpochByFamily ∧
    ∀ i, s.currentBySession.get c.sessionId = some i → ¬ (t.assignments i).Live := by
  unfold accept
  cases hcurrent : s.currentBySession.get c.sessionId with
  | none => exact ⟨s.supersedePrior c, rfl, .refl _, supersedePrior_highest s c, nofun⟩
  | some current =>
    refine ⟨_, rfl, .edit (.superseded _), supersedePrior_highest s c, ?_⟩
    intro i hi
    cases hi
    rw [edit_assignments, if_pos rfl]
    rintro ⟨_, h | h | h⟩ <;> cases h

theorem Inv.accept {closed : Prop} (hi : s.Inv closed) (hopen : ¬ closed) {c : ExecuteTurnCommand}
    (haccepted : s.admission c = .accepted) : (s.accept c).Inv closed := by
  obtain ⟨_, hstale, hnew, _, _⟩ := admission_accepted haccepted
  obtain ⟨t, heq, hprior, hhighest, hreplaced⟩ := s.accept_eq c
  rw [heq]
  have hkeeps := (Keeps.supersedePrior hi c).trans hprior
  have ht := hkeeps.inv closed hi
  refine ht.assign hopen ?_ ?_ (fun i h => hreplaced i (hkeeps.current _ i h)) ?_
  · unfold isStaleExecution at hstale ⊢
    rw [hhighest]
    exact hstale
  · cases hget : t.byExecution.get c.executionReference with
    | none => rfl
    | some i =>
      rw [hkeeps.retained _ i hget] at hnew
      cases hnew
  · intro i hlt hp hfamily hfences
    rw [hkeeps.fresh] at hlt
    have hcommand := hkeeps.command i
    rw [hcommand] at hfamily hfences
    have hlive := hprior.live i (ht.live_of_prepared (hkeeps.fresh ▸ hlt) hp)
    obtain hhigher | hequal := Nat.lt_or_eq_of_le (hi.generation hstale)
    · exact hi.prior hhigher hlt hfamily hlive
    · -- at an equal epoch the command has the lease and the writer of the owner
      have hprepared := hkeeps.prepared i hp
      have hretained := (hi.current _ _ (hi.live i hlt (hi.live_of_prepared hlt hprepared))).2.2.2
      obtain ⟨_, _, hmem⟩ := hi.retained _ i hretained
      obtain ⟨d, hhead⟩ : ∃ d, (admittedSince s.log c.family).head? = some d := by
        rw [hfamily] at hmem
        cases h : (admittedSince s.log c.family).head? with
        | none =>
          rw [List.head?_eq_none_iff.mp h] at hmem
          cases hmem
        | some d => exact ⟨d, rfl⟩
      have hd := (hi.ready i hlt hprepared).2 d (hfamily ▸ List.mem_of_mem_head? hhead)
      have hc : ¬ Fences d.2 c := by
        intro h
        rw [(hi.isStale c).mpr ⟨d, hhead, h⟩] at hstale
        cases hstale
      have hepoch : d.2.executionReference.fencingToken = c.executionReference.fencingToken := by
        rw [← hequal]
        unfold highestGeneration
        rw [hi.owner, hhead]
        rfl
      refine not_fences_trans (b := d.2) ?_ hd hfences
      unfold Fences at hc ⊢
      omega

/-! ### Runs -/

theorem Inv.keeps {closed : Prop} (hi : s.Inv closed) (a : SupervisorAction)
    (hprepare : ∀ c, a ≠ .prepare c) (hretire : a ≠ .retire) : Keeps s (s.act a) := by
  have handle : ∀ i (f : Supervisor → Nat → Supervisor), (i < s.fresh → Keeps s (f s i)) →
      Keeps s (s.withHandle i f) := by
    intro i f hf
    unfold withHandle
    split
    · rename_i hlt
      exact hf hlt
    · exact .refl s
  cases a with
  | prepare c => exact absurd rfl (hprepare c)
  | run i => exact handle i _ .run
  | releaseBeforeStart i => exact handle i _ .releaseBeforeStart
  | revokeExecution i => exact handle i _ fun _ => .revokeExecution i
  | runnerEnds i outcome =>
    exact handle i (fun s i => s.runnerEnds i outcome) fun hlt => .runnerEnds hlt outcome
  | handled i => exact handle i _ fun _ => .handled i
  | settled i => exact handle i _ .settle
  | publish i reference seq =>
    exact handle i (fun s i => s.publish i reference seq) fun hlt => .publish hlt reference seq
  | acknowledged j ok => exact .acknowledged s j ok
  | prepareCancellation c => exact .prepareCancellation s c
  | runCancellation k => exact .runCancellation s k
  | cancellationSettled k => exact .cancellationSettled s k
  | releaseCancellation k => exact .releaseCancellation s k
  | createHeartbeat messageId connectionId now =>
    exact .congr rfl rfl rfl rfl rfl rfl (fun _ => id) rfl rfl
  | acknowledgeHeartbeat j ack now =>
    simp only [act]
    split
    · exact .refl s
    · rename_i r hr
      exact .applyHeartbeatAcknowledgement hr
  | revokeAllAssignments => exact .revokeAllAssignments hi
  | retire => exact absurd rfl hretire
  | reapSettled => exact .reapSettled s
  | retiredRuns j retired => exact .retiredRuns hi j retired

theorem Inv.prepare (hi : s.Inv (s.retiring = true)) (c : ExecuteTurnCommand) :
    (s.prepare c).1.Inv ((s.prepare c).1.retiring = true) := by
  unfold Supervisor.prepare
  split
  · rename_i haccepted
    obtain ⟨t, heq, hprior, _⟩ := s.accept_eq c
    have hretiring : (s.accept c).retiring = s.retiring := by
      rw [heq]
      exact ((Keeps.supersedePrior hi c).trans hprior).retiring
    dsimp only
    rw [hretiring]
    refine hi.accept ?_ haccepted
    rw [(admission_accepted haccepted).1]
    nofun
  · exact hi
  · exact hi

theorem revokeAll_retiring {closed : Prop} (hi : s.Inv closed) : s.retire.1.retiring = true := by
  have hi' : Inv closed { s with retiring := true } :=
    hi.congr rfl rfl rfl rfl rfl rfl fun _ => id
  exact (Keeps.revokeAllAssignments hi').retiring

theorem Inv.act (hi : s.Inv (s.retiring = true)) (a : SupervisorAction) :
    (s.act a).Inv ((s.act a).retiring = true) := by
  by_cases hprepare : ∃ c, a = .prepare c
  · obtain ⟨c, rfl⟩ := hprepare
    exact hi.prepare c
  · by_cases hretire : a = .retire
    · subst hretire
      have hretiring : (s.act .retire).retiring = true := revokeAll_retiring hi
      rw [hretiring, eq_self]
      exact hi.retire
    · have hkeeps := hi.keeps a (fun c h => hprepare ⟨c, h⟩) hretire
      rw [hkeeps.retiring]
      exact hkeeps.inv _ hi

theorem Inv.runs (hi : s.Inv (s.retiring = true)) (actions : List SupervisorAction) :
    (s.runs actions).Inv ((s.runs actions).retiring = true) := by
  unfold Supervisor.runs
  induction actions generalizing s with
  | nil => exact hi
  | cons a actions ih => exact ih (hi.act a)

theorem Inv.start (closed : Prop) (maxConcurrentSessions : Option Nat) :
    Inv closed { maxConcurrentSessions } := by
  refine ⟨?_, ?_, nofun, nofun, nofun, fun _ => rfl, ?_, fun _ => rfl, nofun, nofun, nofun, nofun,
    Always.nil, nofun⟩
  · intro k i h
    cases h
  · intro r i h
    cases h
  · intro f d h
    cases h

/-! ### One family, one session -/

def OneOfFamily (s : Supervisor) : Prop := ∀ i < s.fresh, ∀ j < s.fresh, (s.assignments i).Live →
  (s.assignments j).Live → (s.assignments i).command.family = (s.assignments j).command.family → i = j

def WithinCapacity (s : Supervisor) : Prop :=
  ∀ m, s.maxConcurrentSessions = some m → s.activeSessionCount ≤ m

/-- An admission replaces an assignment of its own family, and at an equal epoch finds no live
assignment of it. -/
def orderly (s : Supervisor) : SupervisorAction → Bool
  | .prepare c =>
    match s.admission c, s.currentBySession.get c.sessionId with
    | .accepted, some i =>
      (s.assignments i).command.family = c.family &&
        (s.highestGeneration c.family < c.executionReference.fencingToken ||
          s.currents.all fun j => (s.assignments j).command.family ≠ c.family ||
            (s.assignments j).state ∉ [AssignmentState.prepared, .running, .cancelling])
    | _, _ => true
  | _ => true

def orderlyRun : Supervisor → List SupervisorAction → Bool
  | _, [] => true
  | s, a :: actions => s.orderly a && orderlyRun (s.act a) actions

theorem mem_families {f : Family} :
    f ∈ s.families ↔ ∃ k i, s.currentBySession.get k = some i ∧ (s.assignments i).command.family = f := by
  unfold families
  constructor
  · intro h
    obtain ⟨i, hi, rfl⟩ := List.mem_map.mp h
    obtain ⟨k, hk⟩ := mem_currents.mp hi
    exact ⟨k, i, hk, rfl⟩
  · rintro ⟨k, i, hk, rfl⟩
    exact List.mem_map.mpr ⟨i, mem_currents.mpr ⟨k, hk⟩, rfl⟩

theorem Keeps.families_subset (h : Keeps s t) : t.families ⊆ s.families := by
  intro f hf
  obtain ⟨k, i, hk, rfl⟩ := mem_families.mp hf
  exact mem_families.mpr ⟨k, i, h.current k i hk, by rw [h.command]⟩

theorem count_of_subset {fs gs : List Family} (h : fs ⊆ gs) : fs.dedup.length ≤ gs.dedup.length := by
  refine (List.nodup_dedup fs).length_le_of_subset fun f hf => ?_
  exact List.mem_dedup.mpr (h (List.mem_dedup.mp hf))

theorem OneOfFamily.keeps (ho : s.OneOfFamily) (h : Keeps s t) : t.OneOfFamily := by
  intro i hi j hj hli hlj hfamily
  rw [h.command, h.command] at hfamily
  rw [h.fresh] at hi hj
  exact ho i hi j hj (h.live i hli) (h.live j hlj) hfamily

theorem WithinCapacity.keeps (hw : s.WithinCapacity) (h : Keeps s t) : t.WithinCapacity := by
  intro m hm
  rw [h.capacity] at hm
  exact Nat.le_trans (count_of_subset h.families_subset) (hw m hm)

theorem live_state {a : Assignment} (h : a.Live) :
    a.state ∈ [AssignmentState.prepared, .running, .cancelling] := by
  obtain ⟨_, h | h | h⟩ := h <;> simp [h]

theorem Inv.alone {closed : Prop} (hi : s.Inv closed) {c : ExecuteTurnCommand}
    (haccepted : s.admission c = .accepted) (horderly : s.orderly (.prepare c) = true) {i : Nat}
    (hlt : i < s.fresh) (hfamily : (s.assignments i).command.family = c.family) :
    ¬ ((s.supersedePrior c).assignments i).Live := by
  obtain ⟨_, hstale, _, hnone, _⟩ := admission_accepted haccepted
  obtain hhigher | hequal := Nat.lt_or_eq_of_le (hi.generation hstale)
  · exact hi.prior hhigher hlt hfamily
  · intro hl
    have hlive := (Keeps.supersedePrior hi c).live i hl
    have hget := hi.live i hlt hlive
    cases hcurrent : s.currentBySession.get c.sessionId with
    | none =>
      refine (hnone hcurrent).2 hequal.symm ?_
      exact mem_families.mpr ⟨_, i, hget, hfamily⟩
    | some current =>
      simp only [orderly, haccepted, hcurrent, Bool.and_eq_true, Bool.or_eq_true, decide_eq_true_eq,
        List.all_eq_true] at horderly
      obtain hlt' | hall := horderly.2
      · omega
      · obtain hne | hstate := hall i (Supervisor.mem_currents.mpr ⟨_, hget⟩)
        · exact hne hfamily
        · exact hstate (live_state hlive)

theorem Inv.accept_oneOfFamily {closed : Prop} (hi : s.Inv closed) (ho : s.OneOfFamily)
    {c : ExecuteTurnCommand} (haccepted : s.admission c = .accepted)
    (horderly : s.orderly (.prepare c) = true) : (s.accept c).OneOfFamily := by
  obtain ⟨t, heq, hprior, -, -⟩ := s.accept_eq c
  have hkeeps := (Keeps.supersedePrior hi c).trans hprior
  have ht := ho.keeps hkeeps
  have halone : ∀ i < t.fresh, (t.assignments i).Live → (t.assignments i).command.family ≠ c.family := by
    intro i hlt hl hfamily
    rw [hkeeps.command] at hfamily
    exact hi.alone haccepted horderly (hkeeps.fresh ▸ hlt) hfamily (hprior.live i hl)
  rw [heq]
  have hold : ∀ i < t.fresh, (t.assign c).assignments i = t.assignments i :=
    fun i hlt => Function.update_of_ne (Nat.ne_of_lt hlt) ..
  have hself : (t.assign c).assignments t.fresh = { command := c } := Function.update_self ..
  intro i hlt j hlt' hli hlj hfamily
  obtain hlt | rfl := Nat.lt_succ_iff_lt_or_eq.mp hlt
  · rw [hold i hlt] at hli hfamily
    obtain hlt' | rfl := Nat.lt_succ_iff_lt_or_eq.mp hlt'
    · rw [hold j hlt'] at hlj hfamily
      exact ht i hlt j hlt' hli hlj hfamily
    · rw [hself] at hfamily
      exact absurd hfamily (halone i hlt hli)
  · obtain hlt' | rfl := Nat.lt_succ_iff_lt_or_eq.mp hlt'
    · rw [hold j hlt'] at hlj hfamily
      rw [hself] at hfamily
      exact absurd hfamily.symm (halone j hlt' hlj)
    · rfl

theorem Inv.accept_withinCapacity {closed : Prop} (hi : s.Inv closed) (hw : s.WithinCapacity)
    {c : ExecuteTurnCommand} (haccepted : s.admission c = .accepted)
    (horderly : s.orderly (.prepare c) = true) : (s.accept c).WithinCapacity := by
  obtain ⟨t, heq, hprior, -, -⟩ := s.accept_eq c
  have hkeeps := (Keeps.supersedePrior hi c).trans hprior
  have ht := hkeeps.inv closed hi
  rw [heq]
  have hsubset : (t.assign c).families ⊆ c.family :: s.families := by
    intro f hf
    obtain ⟨k, i, hk, rfl⟩ := mem_families.mp hf
    change (t.currentBySession.set c.sessionId t.fresh).get k = some i at hk
    show (Function.update t.assignments t.fresh { command := c } i).command.family ∈ _
    rw [InsertionMap.get_set] at hk
    split at hk
    · cases hk
      rw [Function.update_self]
      exact List.mem_cons_self
    · rw [Function.update_of_ne (Nat.ne_of_lt (ht.current k i hk).1)]
      exact List.mem_cons_of_mem _ (hkeeps.families_subset (mem_families.mpr ⟨k, i, hk, rfl⟩))
  intro m hm
  have hm' : s.maxConcurrentSessions = some m := hkeeps.capacity ▸ hm
  have hcount := count_of_subset hsubset
  by_cases hfamily : c.family ∈ s.families
  · rw [List.dedup_cons_of_mem hfamily] at hcount
    exact Nat.le_trans hcount (hw m hm')
  · rw [List.dedup_cons_of_notMem hfamily, List.length_cons] at hcount
    refine Nat.le_trans hcount (Nat.succ_le_of_lt ?_)
    cases hcurrent : s.currentBySession.get c.sessionId with
    | none => exact ((admission_accepted haccepted).2.2.2.1 hcurrent).1 hfamily m hm'
    | some current =>
      simp only [orderly, haccepted, hcurrent, Bool.and_eq_true, decide_eq_true_eq] at horderly
      exact absurd (mem_families.mpr ⟨_, current, hcurrent, horderly.1⟩) hfamily

theorem Inv.act_orderly {closed : Prop} (hi : s.Inv closed) {a : SupervisorAction}
    (horderly : s.orderly a = true) (ho : s.OneOfFamily) (hw : s.WithinCapacity) :
    (s.act a).OneOfFamily ∧ (s.act a).WithinCapacity := by
  by_cases hprepare : ∃ c, a = .prepare c
  · obtain ⟨c, rfl⟩ := hprepare
    simp only [Supervisor.act, Supervisor.prepare]
    split
    · rename_i haccepted
      exact ⟨hi.accept_oneOfFamily ho haccepted horderly, hi.accept_withinCapacity hw haccepted horderly⟩
    · exact ⟨ho, hw⟩
    · exact ⟨ho, hw⟩
  · by_cases hretire : a = .retire
    · subst hretire
      have hi' : Inv closed { s with retiring := true } :=
        hi.congr rfl rfl rfl rfl rfl rfl fun _ => id
      have hkeeps := Keeps.revokeAllAssignments hi'
      have ho' := OneOfFamily.keeps (s := { s with retiring := true }) ho hkeeps
      have hw' := WithinCapacity.keeps (s := { s with retiring := true }) hw hkeeps
      exact ⟨ho', hw'⟩
    · have hkeeps := hi.keeps a (fun c h => hprepare ⟨c, h⟩) hretire
      exact ⟨ho.keeps hkeeps, hw.keeps hkeeps⟩

theorem Inv.runs_orderly (hi : s.Inv (s.retiring = true)) {actions : List SupervisorAction}
    (horderly : s.orderlyRun actions = true) (ho : s.OneOfFamily) (hw : s.WithinCapacity) :
    (s.runs actions).OneOfFamily ∧ (s.runs actions).WithinCapacity := by
  unfold Supervisor.runs
  induction actions generalizing s with
  | nil => exact ⟨ho, hw⟩
  | cons a actions ih =>
    simp only [orderlyRun, Bool.and_eq_true] at horderly
    obtain ⟨ho, hw⟩ := hi.act_orderly horderly.1 ho hw
    exact ih (hi.act a) horderly.2 ho hw

def OneOfSession (s : Supervisor) : Prop := ∀ i < s.fresh, ∀ j < s.fresh, (s.assignments i).Live →
  (s.assignments j).Live →
  (s.assignments i).command.sessionId = (s.assignments j).command.sessionId → i = j

end Supervisor

/-- A command for the Run `runId` under the lease `leaseId`. -/
def command (sessionId piSessionId leaseId runId fencingToken : Nat) : ExecuteTurnCommand where
  tenantId := 1
  sessionId
  piSession := { id := piSessionId, conversationId := 1, writerId := leaseId }
  runId
  executionReference := { leaseId, runId, fencingToken }

def reapedOwner : List SupervisorAction :=
  [.prepare (command 1 10 5 21 2), .run 0, .runnerEnds 0 .completed, .handled 0, .settled 0,
    .reapSettled, .retiredRuns 0 (some [21]), .prepare (command 1 10 4 20 1), .run 1]

def besideOwner (piSessionId : Nat) : List SupervisorAction :=
  [.prepare (command 1 10 5 21 1), .run 0, .prepare (command 2 10 6 22 2), .run 1,
    .prepare (command 1 piSessionId 6 23 2), .run 2]

/-- A recovery under a higher epoch, with a publication, and the reaping of both. -/
def recovery : List SupervisorAction :=
  [.prepare (command 1 10 5 21 1), .run 0, .publish 0 ⟨5, 21, 1⟩ 1, .prepare (command 1 10 6 21 2),
    .run 1, .publish 0 ⟨5, 21, 1⟩ 2, .publish 1 ⟨6, 21, 2⟩ 1, .runnerEnds 0 .failed, .handled 0,
    .settled 0, .reapSettled, .retiredRuns 0 (some []), .retire, .prepare (command 2 11 7 24 1)]

/-- In every run the history keeps its contract, and a session has one live assignment; where every
admission is orderly, a family has one, and the families fit the capacity. -/
theorem agent_run_fencing (maxConcurrentSessions : Option Nat) (actions : List SupervisorAction) :
    Always Contract (Supervisor.runs { maxConcurrentSessions } actions).log ∧
      (Supervisor.runs { maxConcurrentSessions } actions).OneOfSession ∧
      (Supervisor.orderlyRun { maxConcurrentSessions } actions = true →
        (Supervisor.runs { maxConcurrentSessions } actions).OneOfFamily ∧
          (Supervisor.runs { maxConcurrentSessions } actions).WithinCapacity) := by
  have hstart : Supervisor.Inv (({ maxConcurrentSessions } : Supervisor).retiring = true)
      { maxConcurrentSessions } := .start _ maxConcurrentSessions
  have hi := hstart.runs actions
  refine ⟨hi.contract, ?_, fun horderly => hstart.runs_orderly horderly nofun fun _ _ => Nat.zero_le _⟩
  intro i hlt j hlt' hli hlj hsession
  have hget := hi.live i hlt hli
  rw [hsession, hi.live j hlt' hlj] at hget
  exact (Option.some.inj hget).symm

theorem agent_run_fencing_recovery :
    (Supervisor.runs { maxConcurrentSessions := some 1 } recovery).OneOfFamily ∧
      (Supervisor.runs { maxConcurrentSessions := some 1 } recovery).WithinCapacity :=
  (agent_run_fencing (some 1) recovery).2.2 (by decide)

theorem fencing_forgets :
    (¬ ∀ actions past i c later, (Supervisor.runs {} actions).log = past ++ Event.started i c :: later →
        ∀ j d, Event.admitted j d ∈ past → d.family = c.family → ¬ Fences d c) ∧
      (¬ ∀ actions, (Supervisor.runs {} actions).OneOfFamily) ∧
      ¬ ∀ actions, (Supervisor.runs { maxConcurrentSessions := some 1 } actions).WithinCapacity := by
  refine ⟨fun h => ?_, fun h => ?_, fun h => ?_⟩
  · have hlog : (Supervisor.runs {} reapedOwner).log =
        [Event.admitted 0 (command 1 10 5 21 2), .started 0 (command 1 10 5 21 2), .ended 0, .settled 0,
          .reaped 0 (command 1 10 5 21 2) [21], .forgot ⟨1, 10⟩ [21],
          .admitted 1 (command 1 10 4 20 1)] ++ Event.started 1 (command 1 10 4 20 1) :: [] := by decide
    exact h reapedOwner _ 1 _ _ hlog 0 (command 1 10 5 21 2) (by decide) rfl (by decide)
  · have hone := h (besideOwner 10) 1 (by decide) 2 (by decide) ⟨by decide, .inr (.inl (by decide))⟩
      ⟨by decide, .inr (.inl (by decide))⟩ (by decide)
    cases hone
  · have hcount := h (besideOwner 11) 1 (by decide)
    exact absurd hcount (by decide)

end Sandbox
end PiCloud
