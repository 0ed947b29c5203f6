import PiCloud.Lib.History
import PiCloud.Sandbox.AgentRunSupervisor

/-!
# Sandbox.AgentRunHistory

What the supervisor of Agent runs promises of its history, and the invariant that carries it.

* `currentOf`, `admittedSince`: the current assignment of a session and the admissions that a family
  remembers, read off the history alone.
* `Contract`: what holds when a runner is started, an event is published, or an execution is dropped.
* `Inv`: the maps of the supervisor agree with its history.
* `Keeps`: what every step but an admission does, first for the steps of one assignment.
-/

namespace PiCloud
namespace Sandbox

open Lib

/-! ### Reading the history -/

def track (k : Nat) (current : Option Nat) : Event → Option Nat
  | .admitted i c => if c.sessionId = k then some i else current
  | .settled i => if current = some i then none else current
  | _ => current

/-- The assignment that session `k` was last given, unless it has ended. -/
def currentOf (h : List Event) (k : Nat) : Option Nat := h.foldl (track k) none

def remember (f : Family) (known : List (Nat × ExecuteTurnCommand)) :
    Event → List (Nat × ExecuteTurnCommand)
  | .admitted i c => if c.family = f then (i, c) :: known else known
  | .forgot f' _ => if f' = f then [] else known
  | _ => known

def admittedSince (h : List Event) (f : Family) : List (Nat × ExecuteTurnCommand) :=
  h.foldl (remember f) []

/-- `d` fences `c`. -/
def Fences (d c : ExecuteTurnCommand) : Prop :=
  c.executionReference.fencingToken < d.executionReference.fencingToken ∨
    (c.executionReference.fencingToken = d.executionReference.fencingToken ∧
      (c.executionReference.leaseId ≠ d.executionReference.leaseId ∨
        c.piSession.writerId ≠ d.piSession.writerId))

instance (d c : ExecuteTurnCommand) : Decidable (Fences d c) := by
  unfold Fences
  infer_instance

/-- What holds of an event, given the past.

A runner starts unfenced, its execution was not started before unless it has been dropped since, and
nothing was retired. An event is published for the current assignment of its session, above the earlier
ones. An execution is dropped after its runner has ended, when its Run is retired or a later admission
fences it; an owner, when the Run it was last admitted with is retired. -/
def Contract (past : List Event) : Event → Prop
  | .started i c =>
    (∀ d ∈ admittedSince past c.family, ¬ Fences d.2 c) ∧
      (∀ j d, .started j d ∈ past → d.executionReference = c.executionReference →
        j ≠ i ∧ ∃ retired, .reaped j d retired ∈ past) ∧
      .retired ∉ past
  | .published i c seq =>
    currentOf past c.sessionId = some i ∧ ∀ d q, .published i d q ∈ past → q < seq
  | .reaped i c retired =>
    (∀ d, .started i d ∈ past → .ended i ∈ past) ∧
      (c.runId ∈ retired ∨ ∃ d ∈ admittedSince past c.family, Fences d.2 c)
  | .forgot f retired => ∃ d, (admittedSince past f).head? = some d ∧ d.2.runId ∈ retired
  | _ => True

theorem currentOf_snoc (h : List Event) (k : Nat) (e : Event) :
    currentOf (h ++ [e]) k = track k (currentOf h k) e := by
  unfold currentOf
  rw [List.foldl_append]
  rfl

theorem admittedSince_snoc (h : List Event) (f : Family) (e : Event) :
    admittedSince (h ++ [e]) f = remember f (admittedSince h f) e := by
  unfold admittedSince
  rw [List.foldl_append]
  rfl

theorem not_fences_trans {a b c : ExecuteTurnCommand} (hab : ¬ Fences a b) (hbc : ¬ Fences b c) :
    ¬ Fences a c := by
  unfold Fences at *
  omega

namespace Assignment

def Live (a : Assignment) : Prop :=
  a.settled = false ∧ (a.state = .prepared ∨ a.state = .running ∨ a.state = .cancelling)

/-- The state, the promise and `settled` agree. -/
structure Wf (a : Assignment) : Prop where
  prepared : a.state = .prepared → a.runPromise = .idle ∧ a.settled = false
  started : a.state = .running ∨ a.state = .cancelling → a.runPromise ≠ .idle
  settled : a.settled = true → a.runPromise = .idle ∨ ∃ outcome, a.runPromise = .settled outcome
  unsettled : a.settled = false → ∀ outcome, a.runPromise ≠ .settled outcome

/-- What may happen to an assignment without a word in the history. -/
structure Edit (a b : Assignment) : Prop where
  command : b.command = a.command
  settled : b.settled = a.settled
  live : b.Live → a.Live
  prepared : b.state = .prepared → a.state = .prepared
  produced : a.lastProducedSeq ≤ b.lastProducedSeq
  idle : b.runPromise = .idle ↔ a.runPromise = .idle
  running : b.runPromise = .running ↔ a.runPromise = .running
  wf : a.Wf → b.Wf

theorem Edit.refl (a : Assignment) : a.Edit a :=
  ⟨rfl, rfl, id, id, Int.le_refl _, Iff.rfl, Iff.rfl, id⟩

theorem Edit.revoke (a : Assignment) : a.Edit a.revoke := by
  unfold Assignment.revoke
  split
  · rename_i h
    refine ⟨rfl, rfl, fun hl => ⟨hl.1, .inr h.1⟩, nofun, Int.le_refl _, Iff.rfl, Iff.rfl, fun hw => ?_⟩
    exact ⟨nofun, fun _ => hw.started h.1, hw.settled, hw.unsettled⟩
  · exact .refl a

theorem Edit.superseded (a : Assignment) : a.Edit { a with state := .superseded } := by
  refine ⟨rfl, rfl, ?_, nofun, Int.le_refl _, Iff.rfl, Iff.rfl, fun hw => ?_⟩
  · rintro ⟨_, h | h | h⟩ <;> cases h
  · refine ⟨nofun, ?_, hw.settled, hw.unsettled⟩
    rintro (h | h) <;> cases h

theorem Edit.trans {a b c : Assignment} (hab : a.Edit b) (hbc : b.Edit c) : a.Edit c :=
  ⟨hbc.command.trans hab.command, hbc.settled.trans hab.settled, hab.live ∘ hbc.live,
    hab.prepared ∘ hbc.prepared, Int.le_trans hab.produced hbc.produced, hbc.idle.trans hab.idle,
    hbc.running.trans hab.running, hbc.wf ∘ hab.wf⟩

theorem Edit.cancel {a : Assignment} (h : a.state = .running) :
    a.Edit { a with state := .cancelling, aborted := true } := by
  refine ⟨rfl, rfl, fun hl => ⟨hl.1, .inr (.inl h)⟩, nofun, Int.le_refl _, Iff.rfl, Iff.rfl, fun hw => ?_⟩
  exact ⟨nofun, fun _ => hw.started (.inl h), hw.settled, hw.unsettled⟩

theorem handle_state (a : Assignment) (outcome : RunOutcome) :
    ((a.handle outcome).state = a.state ∨ (a.handle outcome).state = .completed ∨
      (a.handle outcome).state = .failed ∨ (a.handle outcome).state = .cancelled) ∧
      ∃ result, a.handle outcome =
        { a with state := (a.handle outcome).state, runPromise := .handled result } := by
  unfold Assignment.handle
  cases outcome with
  | completed =>
    dsimp only
    split
    · exact ⟨.inl rfl, _, rfl⟩
    · exact ⟨.inr (.inl rfl), _, rfl⟩
  | cancelled reason =>
    dsimp only
    split
    · exact ⟨.inr (.inr (.inr rfl)), _, rfl⟩
    · split
      · exact ⟨.inr (.inr (.inl rfl)), _, rfl⟩
      · exact ⟨.inl rfl, _, rfl⟩
  | failed =>
    dsimp only
    split
    · exact ⟨.inr (.inr (.inl rfl)), _, rfl⟩
    · exact ⟨.inl rfl, _, rfl⟩

theorem Edit.handle {a : Assignment} {o : RunOutcome} (h : a.runPromise = .ended o)
    (outcome : RunOutcome) : a.Edit (a.handle outcome) := by
  obtain ⟨hstate, result, heq⟩ := a.handle_state outcome
  generalize (a.handle outcome).state = state at hstate heq
  rw [heq]
  have hold : ∀ t, t = .prepared ∨ t = .running ∨ t = .cancelling → state = t → a.state = t := by
    rintro t ht rfl
    obtain h | h | h | h := hstate
    · exact h.symm
    all_goals
      rw [h] at ht
      obtain ht | ht | ht := ht <;> cases ht
  refine ⟨rfl, rfl, ?_, hold _ (.inl rfl), Int.le_refl _, ?_, ?_, ?_⟩
  · rintro ⟨hs, hl | hl | hl⟩
    · exact ⟨hs, .inl (hold _ (.inl rfl) hl)⟩
    · exact ⟨hs, .inr (.inl (hold _ (.inr (.inl rfl)) hl))⟩
    · exact ⟨hs, .inr (.inr (hold _ (.inr (.inr rfl)) hl))⟩
  · rw [h]
    exact ⟨nofun, nofun⟩
  · rw [h]
    exact ⟨nofun, nofun⟩
  · intro hw
    refine ⟨fun hp => ?_, fun _ => nofun, fun hs => ?_, fun _ _ => nofun⟩
    · have hidle := (hw.prepared (hold _ (.inl rfl) hp)).1
      rw [h] at hidle
      cases hidle
    · obtain hidle | ⟨o', ho'⟩ := hw.settled hs
      · rw [h] at hidle
        cases hidle
      · rw [h] at ho'
        cases ho'

end Assignment

namespace Supervisor

variable {s t : Supervisor}

/-- The owner that an admission leaves. -/
def ownerOf (d : Nat × ExecuteTurnCommand) : Owner where
  epoch := d.2.executionReference.fencingToken
  leaseId := d.2.executionReference.leaseId
  writerId := d.2.piSession.writerId
  lastRunId := d.2.runId
  admission := d.1

/-- The maps agree with the history. `closed` says that nothing may be prepared any more. -/
structure Inv (closed : Prop) (s : Supervisor) : Prop where
  current : ∀ k i, s.currentBySession.get k = some i → i < s.fresh ∧
    (s.assignments i).command.sessionId = k ∧ (s.assignments i).settled = false ∧
    s.byExecution.get (s.assignments i).command.executionReference = some i
  retained : ∀ r i, s.byExecution.get r = some i → i < s.fresh ∧
    (s.assignments i).command.executionReference = r ∧
    (i, (s.assignments i).command) ∈ admittedSince s.log (s.assignments i).command.family
  live : ∀ i < s.fresh, (s.assignments i).Live →
    s.currentBySession.get (s.assignments i).command.sessionId = some i
  wf : ∀ i < s.fresh, (s.assignments i).Wf
  ready : ∀ i < s.fresh, (s.assignments i).state = .prepared → ¬ closed ∧
    ∀ d ∈ admittedSince s.log (s.assignments i).command.family,
      ¬ Fences d.2 (s.assignments i).command
  owner : ∀ f, s.highestEpochByFamily.get f = (admittedSince s.log f).head?.map ownerOf
  newest : ∀ f d, (admittedSince s.log f).head? = some d →
    ∀ e ∈ admittedSince s.log f, ¬ Fences e.2 d.2
  tracked : ∀ k, currentOf s.log k = s.currentBySession.get k
  retired : .retired ∈ s.log → closed
  started : ∀ i c, .started i c ∈ s.log → i < s.fresh ∧ c = (s.assignments i).command ∧
    (s.assignments i).runPromise ≠ .idle ∧
    ((∃ retired, .reaped i c retired ∈ s.log) ∨ s.byExecution.get c.executionReference = some i)
  ended : ∀ i < s.fresh, (s.assignments i).runPromise ≠ .idle →
    (s.assignments i).runPromise ≠ .running → .ended i ∈ s.log
  published : ∀ i c q, .published i c q ∈ s.log → i < s.fresh ∧ q ≤ (s.assignments i).lastProducedSeq
  contract : Always Contract s.log
  reaps : ∀ r ∈ s.reaps, ∀ i ∈ r.completed, i < s.fresh ∧ (s.assignments i).settled = true

theorem Inv.congr {closed : Prop} (hi : s.Inv closed) (hassignments : t.assignments = s.assignments)
    (hfresh : t.fresh = s.fresh) (hcurrent : t.currentBySession = s.currentBySession)
    (hretained : t.byExecution = s.byExecution)
    (howner : t.highestEpochByFamily = s.highestEpochByFamily) (hlog : t.log = s.log)
    (hreaps : ∀ r ∈ t.reaps, r ∈ s.reaps) : t.Inv closed := by
  obtain ⟨_, _, _, _, _, _, _, _, _, _, _, _, _⟩ := t
  dsimp only at *
  subst hassignments hfresh hcurrent hretained howner hlog
  exact ⟨hi.current, hi.retained, hi.live, hi.wf, hi.ready, hi.owner, hi.newest, hi.tracked,
    hi.retired, hi.started, hi.ended, hi.published, hi.contract, fun r hr => hi.reaps r (hreaps r hr)⟩

/-- A step that is no admission. -/
structure Keeps (s t : Supervisor) : Prop where
  inv : ∀ closed, s.Inv closed → t.Inv closed
  fresh : t.fresh = s.fresh
  capacity : t.maxConcurrentSessions = s.maxConcurrentSessions
  retiring : t.retiring = s.retiring
  command : ∀ i, (t.assignments i).command = (s.assignments i).command
  live : ∀ i, (t.assignments i).Live → (s.assignments i).Live
  prepared : ∀ i, (t.assignments i).state = .prepared → (s.assignments i).state = .prepared
  settled : ∀ i, (s.assignments i).settled = true → (t.assignments i).settled = true
  current : ∀ k i, t.currentBySession.get k = some i → s.currentBySession.get k = some i
  retained : ∀ r i, t.byExecution.get r = some i → s.byExecution.get r = some i

namespace Keeps

theorem refl (s : Supervisor) : Keeps s s :=
  ⟨fun _ => id, rfl, rfl, rfl, fun _ => rfl, fun _ => id, fun _ => id, fun _ => id, fun _ _ => id,
    fun _ _ => id⟩

theorem trans {u : Supervisor} (hst : Keeps s t) (htu : Keeps t u) : Keeps s u where
  inv closed hi := htu.inv closed (hst.inv closed hi)
  fresh := htu.fresh.trans hst.fresh
  capacity := htu.capacity.trans hst.capacity
  retiring := htu.retiring.trans hst.retiring
  command i := (htu.command i).trans (hst.command i)
  live i := hst.live i ∘ htu.live i
  prepared i := hst.prepared i ∘ htu.prepared i
  settled i := htu.settled i ∘ hst.settled i
  current k i := hst.current k i ∘ htu.current k i
  retained r i := hst.retained r i ∘ htu.retained r i

theorem foldl {α β : Type} {f : α → β → α} {v : α → Supervisor} {l : List β}
    (h : ∀ r, ∀ x ∈ l, Keeps s (v r) → Keeps (v r) (v (f r x))) {r : α}
    (hr : Keeps s (v r)) : Keeps s (v (l.foldl f r)) := by
  induction l generalizing r with
  | nil => exact hr
  | cons x l ih =>
    exact ih (fun r y hy => h r y (List.mem_cons_of_mem x hy)) (hr.trans (h r x List.mem_cons_self hr))

theorem congr (hassignments : t.assignments = s.assignments) (hfresh : t.fresh = s.fresh)
    (hcurrent : t.currentBySession = s.currentBySession) (hretained : t.byExecution = s.byExecution)
    (howner : t.highestEpochByFamily = s.highestEpochByFamily) (hlog : t.log = s.log)
    (hreaps : ∀ r ∈ t.reaps, r ∈ s.reaps) (hcapacity : t.maxConcurrentSessions = s.maxConcurrentSessions)
    (hretiring : t.retiring = s.retiring) : Keeps s t := by
  refine ⟨fun _ hi => hi.congr hassignments hfresh hcurrent hretained howner hlog hreaps, hfresh,
    hcapacity, hretiring, ?_, ?_, ?_, ?_, ?_, ?_⟩
  · exact fun i => congrArg Assignment.command (congrFun hassignments i)
  · exact fun i => hassignments ▸ id
  · exact fun i => hassignments ▸ id
  · exact fun i => hassignments ▸ id
  · exact fun k i => hcurrent ▸ id
  · exact fun r i => hretained ▸ id

end Keeps

theorem edit_assignments (s : Supervisor) (i j : Nat) (f : Assignment → Assignment) :
    (s.edit i f).assignments j = if j = i then f (s.assignments i) else s.assignments j := by
  unfold Supervisor.edit
  exact Function.update_apply ..

theorem edit_at {i : Nat} {f : Assignment → Assignment}
    (h : (s.assignments i).Edit (f (s.assignments i))) (j : Nat) :
    (s.assignments j).Edit ((s.edit i f).assignments j) := by
  rw [edit_assignments]
  split
  · rename_i hji
    rw [hji]
    exact h
  · exact .refl _

theorem Keeps.edit {i : Nat} {f : Assignment → Assignment}
    (h : (s.assignments i).Edit (f (s.assignments i))) : Keeps s (s.edit i f) := by
  have hj := edit_at h
  generalize hu : (s.edit i f).assignments = assignments at hj
  have hs : s.edit i f = { s with assignments } := by
    rw [← hu]
    rfl
  rw [hs]
  refine ⟨fun closed hi => ?_, rfl, rfl, rfl, fun j => (hj j).command, fun j => (hj j).live,
    fun j => (hj j).prepared, fun j h => (hj j).settled.trans h, fun _ _ => id, fun _ _ => id⟩
  refine ⟨?_, ?_, ?_, ?_, ?_, hi.owner, hi.newest, hi.tracked, hi.retired, ?_, ?_, ?_, hi.contract,
    ?_⟩
  · intro k j hk
    obtain ⟨hlt, hsession, hsettled, hget⟩ := hi.current k j hk
    dsimp only
    rw [(hj j).command, (hj j).settled]
    exact ⟨hlt, hsession, hsettled, hget⟩
  · intro r j hr
    dsimp only
    rw [(hj j).command]
    exact hi.retained r j hr
  · intro j hlt hl
    dsimp only
    rw [(hj j).command]
    exact hi.live j hlt ((hj j).live hl)
  · exact fun j hlt => (hj j).wf (hi.wf j hlt)
  · intro j hlt hp
    dsimp only
    rw [(hj j).command]
    exact hi.ready j hlt ((hj j).prepared hp)
  · intro j c hstarted
    dsimp only
    rw [(hj j).command, ne_eq, (hj j).idle]
    exact hi.started j c hstarted
  · intro j hlt hidle hrunning
    exact hi.ended j hlt (mt (hj j).idle.mpr hidle) (mt (hj j).running.mpr hrunning)
  · intro j c q hq
    obtain ⟨hlt, hle⟩ := hi.published j c q hq
    exact ⟨hlt, Int.le_trans hle (hj j).produced⟩
  · intro r hr j hmem
    dsimp only
    rw [(hj j).settled]
    exact hi.reaps r hr j hmem

/-! ### Steps of one assignment -/

theorem Inv.get_leave {closed : Prop} (hi : s.Inv closed) (i k : Nat) :
    (s.leave i).get k =
      if s.currentBySession.get k = some i then none else s.currentBySession.get k := by
  unfold leave
  split
  · rename_i hcurrent
    rw [InsertionMap.get_delete]
    by_cases hk : k = (s.assignments i).command.sessionId
    · rw [if_pos hk, hk, if_pos hcurrent]
    · rw [if_neg hk, if_neg fun hget => hk (hi.current k i hget).2.1.symm]
  · rename_i hcurrent
    rw [if_neg]
    intro hk
    rw [(hi.current k i hk).2.1] at hcurrent
    exact hcurrent hk

theorem get_leave_of (i k j : Nat) (h : (s.leave i).get k = some j) :
    s.currentBySession.get k = some j := by
  unfold leave at h
  split at h
  · exact InsertionMap.get_delete_some h
  · exact h

/-- An assignment ends. What leaves `byExecution` with it was not started. -/
theorem Inv.settle {closed : Prop} (hi : s.Inv closed) {i : Nat} (hlt : i < s.fresh)
    {a : Assignment} {m : InsertionMap ExecutionReference Nat}
    (hcommand : a.command = (s.assignments i).command) (hsettled : a.settled = true)
    (hproduced : a.lastProducedSeq = (s.assignments i).lastProducedSeq)
    (hstate : a.state ≠ .prepared) (hidle : a.runPromise = .idle ↔ (s.assignments i).runPromise = .idle)
    (hended : a.runPromise ≠ .idle → (s.assignments i).runPromise ≠ .running) (hwf : a.Wf)
    (hm : ∀ r j, m.get r = some j → s.byExecution.get r = some j)
    (hother : ∀ r j, s.byExecution.get r = some j → m.get r = some j ∨
      (j = i ∧ (s.assignments i).runPromise = .idle)) :
    Inv closed { s with
      assignments := Function.update s.assignments i a
      currentBySession := s.leave i
      byExecution := m
      log := s.log ++ [Event.settled i] } := by
  have hat : ∀ j, (Function.update s.assignments i a j).command = (s.assignments j).command := by
    intro j
    by_cases hji : j = i
    · subst hji
      rw [Function.update_self, hcommand]
    · rw [Function.update_of_ne hji]
  have hlog : ∀ f, admittedSince (s.log ++ [Event.settled i]) f = admittedSince s.log f :=
    fun f => admittedSince_snoc s.log f _
  refine ⟨?_, ?_, ?_, ?_, ?_, ?_, ?_, ?_, ?_, ?_, ?_, ?_, hi.contract.snoc trivial, ?_⟩
  · intro k j hk
    dsimp only at hk ⊢
    rw [hi.get_leave] at hk
    split at hk
    · cases hk
    · rename_i hki
      have hji : j ≠ i := by
        rintro rfl
        exact hki hk
      obtain ⟨hj, hsession, hsettled, hget⟩ := hi.current k j hk
      rw [Function.update_of_ne hji]
      exact ⟨hj, hsession, hsettled, (hother _ _ hget).resolve_right fun h => hji h.1⟩
  · intro r j hr
    dsimp only
    rw [hat, hlog]
    exact hi.retained r j (hm r j hr)
  · intro j hj hl
    dsimp only at hl ⊢
    have hji : j ≠ i := by
      rintro rfl
      rw [Function.update_self] at hl
      exact absurd (hsettled.symm.trans hl.1) (by rintro ⟨⟩)
    rw [Function.update_of_ne hji] at hl ⊢
    have hget := hi.live j hj hl
    rw [hi.get_leave, if_neg, hget]
    rw [hget]
    exact fun h => hji (Option.some.inj h)
  · intro j hj
    dsimp only
    by_cases hji : j = i
    · subst hji
      rw [Function.update_self]
      exact hwf
    · rw [Function.update_of_ne hji]
      exact hi.wf j hj
  · intro j hj hp
    dsimp only at hp ⊢
    rw [hat, hlog]
    have hji : j ≠ i := by
      rintro rfl
      rw [Function.update_self] at hp
      exact hstate hp
    rw [Function.update_of_ne hji] at hp
    exact hi.ready j hj hp
  · intro f
    dsimp only
    rw [hlog]
    exact hi.owner f
  · intro f d
    dsimp only
    rw [hlog]
    exact hi.newest f d
  · intro k
    dsimp only
    rw [currentOf_snoc, hi.tracked, hi.get_leave]
    rfl
  · exact fun h => hi.retired (mem_of_mem_snoc h (by rintro ⟨⟩))
  · intro j c h
    have h := mem_of_mem_snoc h (by rintro ⟨⟩)
    obtain ⟨hj, hc, hpromise, hkept⟩ := hi.started j c h
    dsimp only
    refine ⟨hj, hc.trans (hat j).symm, ?_, ?_⟩
    · by_cases hji : j = i
      · subst hji
        rw [Function.update_self]
        exact mt hidle.mp hpromise
      · rw [Function.update_of_ne hji]
        exact hpromise
    · obtain ⟨retired, hreaped⟩ | hget := hkept
      · exact .inl ⟨retired, List.mem_append_left _ hreaped⟩
      · obtain hget | ⟨rfl, hi⟩ := hother _ _ hget
        · exact .inr hget
        · exact absurd hi hpromise
  · intro j hj hnotidle hrunning
    dsimp only at hnotidle hrunning
    refine List.mem_append_left _ ?_
    by_cases hji : j = i
    · subst hji
      rw [Function.update_self] at hnotidle
      exact hi.ended j hj (mt hidle.mpr hnotidle) (hended hnotidle)
    · rw [Function.update_of_ne hji] at hnotidle hrunning
      exact hi.ended j hj hnotidle hrunning
  · intro j c q h
    have h := mem_of_mem_snoc h (by rintro ⟨⟩)
    obtain ⟨hj, hle⟩ := hi.published j c q h
    dsimp only
    refine ⟨hj, ?_⟩
    by_cases hji : j = i
    · subst hji
      rw [Function.update_self, hproduced]
      exact hle
    · rw [Function.update_of_ne hji]
      exact hle
  · intro r hr j hj
    obtain ⟨hj, hs⟩ := hi.reaps r hr j hj
    dsimp only
    refine ⟨hj, ?_⟩
    by_cases hji : j = i
    · subst hji
      rw [Function.update_self]
      exact hsettled
    · rw [Function.update_of_ne hji]
      exact hs

theorem Inv.say {closed : Prop} (hi : s.Inv closed) {i : Nat} {a : Assignment} {e : Event}
    (htrack : ∀ k current, track k current e = current)
    (hremember : ∀ f known, remember f known e = known) (hretired : e ≠ .retired)
    (hcontract : Contract s.log e) (hcommand : a.command = (s.assignments i).command)
    (hsettled : a.settled = (s.assignments i).settled) (hlive : a.Live → (s.assignments i).Live)
    (hprepared : a.state = .prepared → (s.assignments i).state = .prepared)
    (hproduced : (s.assignments i).lastProducedSeq ≤ a.lastProducedSeq)
    (hidle : a.runPromise = .idle → (s.assignments i).runPromise = .idle)
    (hwf : i < s.fresh → a.Wf)
    (hstarted : ∀ j c, e = .started j c → j = i ∧ i < s.fresh ∧ c = (s.assignments i).command ∧
      a.runPromise ≠ .idle ∧ s.byExecution.get c.executionReference = some i)
    (hended : a.runPromise ≠ .idle → a.runPromise ≠ .running →
      ((s.assignments i).runPromise ≠ .idle ∧ (s.assignments i).runPromise ≠ .running) ∨ e = .ended i)
    (hpublished : ∀ j c q, e = .published j c q → j = i ∧ i < s.fresh ∧ q ≤ a.lastProducedSeq) :
    Inv closed { s with
      assignments := Function.update s.assignments i a
      log := s.log ++ [e] } := by
  have hat : ∀ j, (Function.update s.assignments i a j).command = (s.assignments j).command ∧
      (Function.update s.assignments i a j).settled = (s.assignments j).settled := by
    intro j
    by_cases hji : j = i
    · subst hji
      rw [Function.update_self]
      exact ⟨hcommand, hsettled⟩
    · rw [Function.update_of_ne hji]
      exact ⟨rfl, rfl⟩
  have hlog : ∀ f, admittedSince (s.log ++ [e]) f = admittedSince s.log f :=
    fun f => (admittedSince_snoc s.log f e).trans (hremember f _)
  refine ⟨?_, ?_, ?_, ?_, ?_, ?_, ?_, ?_, ?_, ?_, ?_, ?_, hi.contract.snoc hcontract, ?_⟩
  · intro k j hk
    dsimp only
    rw [(hat j).1, (hat j).2]
    exact hi.current k j hk
  · intro r j hr
    dsimp only
    rw [(hat j).1, hlog]
    exact hi.retained r j hr
  · intro j hj hl
    dsimp only at hl ⊢
    rw [(hat j).1]
    refine hi.live j hj ?_
    by_cases hji : j = i
    · subst hji
      rw [Function.update_self] at hl
      exact hlive hl
    · rw [Function.update_of_ne hji] at hl
      exact hl
  · intro j hj
    dsimp only
    by_cases hji : j = i
    · subst hji
      rw [Function.update_self]
      exact hwf hj
    · rw [Function.update_of_ne hji]
      exact hi.wf j hj
  · intro j hj hp
    dsimp only at hp ⊢
    rw [(hat j).1, hlog]
    refine hi.ready j hj ?_
    by_cases hji : j = i
    · subst hji
      rw [Function.update_self] at hp
      exact hprepared hp
    · rw [Function.update_of_ne hji] at hp
      exact hp
  · intro f
    dsimp only
    rw [hlog]
    exact hi.owner f
  · intro f d
    dsimp only
    rw [hlog]
    exact hi.newest f d
  · intro k
    dsimp only
    rw [currentOf_snoc, htrack]
    exact hi.tracked k
  · intro h
    obtain h | h := List.mem_append.mp h
    · exact hi.retired h
    · exact absurd (List.mem_singleton.mp h).symm hretired
  · intro j c h
    obtain h | h := List.mem_append.mp h
    · obtain ⟨hj, hc, hpromise, hkept⟩ := hi.started j c h
      dsimp only
      refine ⟨hj, hc.trans (hat j).1.symm, ?_, ?_⟩
      · by_cases hji : j = i
        · subst hji
          rw [Function.update_self]
          exact mt hidle hpromise
        · rw [Function.update_of_ne hji]
          exact hpromise
      · obtain ⟨retired, hreaped⟩ | hget := hkept
        · exact .inl ⟨retired, List.mem_append_left _ hreaped⟩
        · exact .inr hget
    · obtain ⟨rfl, hj, rfl, hpromise, hget⟩ := hstarted j c (List.mem_singleton.mp h).symm
      dsimp only
      rw [Function.update_self]
      exact ⟨hj, hcommand.symm, hpromise, .inr hget⟩
  · intro j hj hnotidle hrunning
    dsimp only at hnotidle hrunning
    by_cases hji : j = i
    · subst hji
      rw [Function.update_self] at hnotidle hrunning
      obtain ⟨hnotidle, hrunning⟩ | rfl := hended hnotidle hrunning
      · exact List.mem_append_left _ (hi.ended j hj hnotidle hrunning)
      · exact List.mem_append_right _ (List.mem_singleton.mpr rfl)
    · rw [Function.update_of_ne hji] at hnotidle hrunning
      exact List.mem_append_left _ (hi.ended j hj hnotidle hrunning)
  · intro j c q h
    obtain h | h := List.mem_append.mp h
    · obtain ⟨hj, hle⟩ := hi.published j c q h
      dsimp only
      refine ⟨hj, ?_⟩
      by_cases hji : j = i
      · subst hji
        rw [Function.update_self]
        exact Int.le_trans hle hproduced
      · rw [Function.update_of_ne hji]
        exact hle
    · obtain ⟨rfl, hj, hle⟩ := hpublished j c q (List.mem_singleton.mp h).symm
      dsimp only
      rw [Function.update_self]
      exact ⟨hj, hle⟩
  · intro r hr j hj
    dsimp only
    rw [(hat j).2]
    exact hi.reaps r hr j hj

/-- The parts of `Keeps` that an update of one assignment leaves to be shown. -/
theorem Keeps.of_update {i : Nat} {a : Assignment} (hinv : ∀ closed, s.Inv closed → t.Inv closed)
    (hassignments : t.assignments = Function.update s.assignments i a) (hfresh : t.fresh = s.fresh)
    (hcapacity : t.maxConcurrentSessions = s.maxConcurrentSessions)
    (hretiring : t.retiring = s.retiring) (hcommand : a.command = (s.assignments i).command)
    (hlive : a.Live → (s.assignments i).Live)
    (hprepared : a.state = .prepared → (s.assignments i).state = .prepared)
    (hsettled : (s.assignments i).settled = true → a.settled = true)
    (hcurrent : ∀ k j, t.currentBySession.get k = some j → s.currentBySession.get k = some j)
    (hretained : ∀ r j, t.byExecution.get r = some j → s.byExecution.get r = some j) : Keeps s t := by
  refine ⟨hinv, hfresh, hcapacity, hretiring, ?_, ?_, ?_, ?_, hcurrent, hretained⟩
  · intro j
    rw [hassignments]
    by_cases hji : j = i
    · subst hji
      rw [Function.update_self, hcommand]
    · rw [Function.update_of_ne hji]
  · intro j hl
    rw [hassignments] at hl
    by_cases hji : j = i
    · subst hji
      rw [Function.update_self] at hl
      exact hlive hl
    · rw [Function.update_of_ne hji] at hl
      exact hl
  · intro j hp
    rw [hassignments] at hp
    by_cases hji : j = i
    · subst hji
      rw [Function.update_self] at hp
      exact hprepared hp
    · rw [Function.update_of_ne hji] at hp
      exact hp
  · intro j hs
    rw [hassignments]
    by_cases hji : j = i
    · subst hji
      rw [Function.update_self]
      exact hsettled hs
    · rw [Function.update_of_ne hji]
      exact hs

theorem Keeps.releaseBeforeStart {i : Nat} (hlt : i < s.fresh) :
    Keeps s (s.releaseBeforeStart i) := by
  unfold Supervisor.releaseBeforeStart
  split
  · rename_i hprepared
    have hm : ∀ r j, (if s.byExecution.get (s.assignments i).command.executionReference = some i then
        s.byExecution.delete (s.assignments i).command.executionReference
        else s.byExecution).get r = some j → s.byExecution.get r = some j := by
      intro r j h
      split at h
      · exact InsertionMap.get_delete_some h
      · exact h
    refine Keeps.of_update (fun closed hi => ?_) rfl rfl rfl rfl rfl (fun hl => absurd hl.1 (by rintro ⟨⟩)) (by rintro ⟨⟩)
      (fun _ => rfl) (get_leave_of i) hm
    have hidle := ((hi.wf i hlt).prepared hprepared).1
    have hnot : ¬ (AssignmentState.failed = .running ∨ AssignmentState.failed = .cancelling) := by
      rintro (h | h) <;> cases h
    refine hi.settle hlt rfl rfl rfl (by rintro ⟨⟩) Iff.rfl (fun h => absurd hidle h)
      ⟨by rintro ⟨⟩, fun h => absurd h hnot, fun _ => .inl hidle, by rintro ⟨⟩⟩ hm ?_
    intro r j h
    split
    · rename_i hget
      rw [InsertionMap.get_delete]
      split
      · rename_i hr
        rw [hr, hget] at h
        exact .inr ⟨(Option.some.inj h).symm, hidle⟩
      · exact .inl h
    · exact .inl h
  · exact .refl s

theorem Keeps.settle {i : Nat} (hlt : i < s.fresh) : Keeps s (s.settle i) := by
  unfold Supervisor.settle
  split
  · rename_i outcome hpromise
    have hprepared : ∀ closed, s.Inv closed → (s.assignments i).state ≠ .prepared := by
      intro closed hi hp
      have hidle := ((hi.wf i hlt).prepared hp).1
      rw [hpromise] at hidle
      cases hidle
    refine Keeps.of_update (fun closed hi => ?_) rfl rfl rfl rfl rfl (fun hl => absurd hl.1 nofun) id
      (fun _ => rfl) (get_leave_of i) fun _ _ => id
    refine hi.settle hlt rfl rfl rfl (hprepared closed hi) ?_ ?_ ?_ (fun _ _ => id) fun _ _ => .inl
    · rw [hpromise]
      exact ⟨nofun, nofun⟩
    · rw [hpromise]
      exact fun _ => nofun
    · exact ⟨fun hp => absurd hp (hprepared closed hi), fun _ => nofun, fun _ => .inr ⟨outcome, rfl⟩,
        nofun⟩
  · exact .refl s

theorem Keeps.runnerEnds {i : Nat} (hlt : i < s.fresh) (outcome : RunOutcome) :
    Keeps s (s.runnerEnds i outcome) := by
  unfold Supervisor.runnerEnds
  split
  · rename_i hpromise
    refine Keeps.of_update (fun closed hi => ?_) rfl rfl rfl rfl rfl id id id (fun _ _ => id)
      fun _ _ => id
    refine hi.say (fun _ _ => rfl) (fun _ _ => rfl) nofun trivial rfl rfl id id (Int.le_refl _) nofun
      (fun _ => ?_) nofun (fun _ _ => .inr rfl) nofun
    have hw := hi.wf i hlt
    refine ⟨fun hp => ?_, fun _ => nofun, fun hs => ?_, fun _ _ => nofun⟩
    · have hidle := (hw.prepared hp).1
      rw [hpromise] at hidle
      cases hidle
    · obtain hidle | ⟨o, ho⟩ := hw.settled hs
      · rw [hpromise] at hidle
        cases hidle
      · rw [hpromise] at ho
        cases ho
  · exact .refl s

theorem Keeps.handled (i : Nat) : Keeps s (s.handled i) := by
  unfold Supervisor.handled
  split
  · rename_i outcome hpromise
    exact .edit (.handle hpromise outcome)
  · exact .refl s

theorem Keeps.revokeExecution (i : Nat) : Keeps s (s.revokeExecution i) := .edit (.revoke _)

theorem Keeps.run {i : Nat} (hlt : i < s.fresh) : Keeps s (s.run i) := by
  unfold Supervisor.run
  split
  · exact .refl s
  · rename_i hidle
    split
    · exact .refl s
    · rename_i hcurrent
      obtain ⟨hget, hprepared⟩ := not_or.mp hcurrent
      rw [not_not] at hidle hget hprepared
      refine Keeps.of_update (fun closed hi => ?_) rfl rfl rfl rfl rfl
        (fun hl => ⟨hl.1, .inl hprepared⟩) (by rintro ⟨⟩) id (fun _ _ => id) fun _ _ => id
      obtain ⟨hopen, hfresh⟩ := hi.ready i hlt hprepared
      have hretained := (hi.current _ _ hget).2.2.2
      refine hi.say (fun _ _ => rfl) (fun _ _ => rfl) (by rintro ⟨⟩) ⟨hfresh, ?_, fun h => hopen (hi.retired h)⟩
        rfl rfl (fun hl => ⟨hl.1, .inl hprepared⟩) (by rintro ⟨⟩) (Int.le_refl _) (by rintro ⟨⟩) (fun _ => ?_) ?_
        (fun _ h => absurd rfl h) (by simp)
      · intro j d hd hreference
        obtain ⟨_, hc, hpromise, hkept⟩ := hi.started j d hd
        have hji : j ≠ i := by
          rintro rfl
          exact hpromise hidle
        refine ⟨hji, hkept.resolve_right fun h => ?_⟩
        rw [hreference, hretained] at h
        exact hji (Option.some.inj h).symm
      · have hs := ((hi.wf i hlt).prepared hprepared).2
        exact ⟨by rintro ⟨⟩, fun _ => by rintro ⟨⟩,
          fun h => absurd (hs.symm.trans h) (by rintro ⟨⟩), fun _ _ => by rintro ⟨⟩⟩
      · intro j c heq
        cases heq
        exact ⟨rfl, hlt, rfl, by rintro ⟨⟩, hretained⟩

theorem Keeps.publish {i : Nat} (hlt : i < s.fresh) (reference : ExecutionReference) (seq : Int) :
    Keeps s (s.publish i reference seq) := by
  simp only [Supervisor.publish]
  split
  · exact .refl s
  · split
    · exact .refl s
    · rename_i hcurrent
      obtain ⟨hget, hstate⟩ := not_or.mp hcurrent
      rw [not_not] at hget
      split
      · exact .refl s
      · rename_i hseq
        have hlt' := Int.not_le.mp (not_or.mp hseq).2
        split
        · refine Keeps.of_update (fun closed hi => ?_) rfl rfl rfl rfl rfl id id id (fun _ _ => id)
            fun _ _ => id
          have hw := hi.wf i hlt
          have hsaid := hi.say (i := i) (a := { s.assignments i with lastProducedSeq := seq })
            (e := .published i (s.assignments i).command seq) (fun _ _ => rfl) (fun _ _ => rfl) (by rintro ⟨⟩)
            ⟨(hi.tracked _).trans hget, fun d q hq => Int.lt_of_le_of_lt (hi.published i d q hq).2 hlt'⟩
            rfl rfl id id (Int.le_of_lt hlt') id
            (fun _ => ⟨hw.prepared, hw.started, hw.settled, hw.unsettled⟩) (by simp)
            (fun hidle hrunning => .inl ⟨hidle, hrunning⟩) fun j c q heq => by
              cases heq
              exact ⟨rfl, hlt, Int.le_refl _⟩
          exact hsaid.congr rfl rfl rfl rfl rfl rfl fun _ => id
        · exact .edit ⟨rfl, rfl, id, id, Int.le_of_lt hlt', Iff.rfl, Iff.rfl,
            fun hw => ⟨hw.prepared, hw.started, hw.settled, hw.unsettled⟩⟩

end Supervisor

end Sandbox
end PiCloud
