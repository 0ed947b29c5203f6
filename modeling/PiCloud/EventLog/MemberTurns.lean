import PiCloud.EventLog.GroupCommit

/-!
# EventLog.MemberTurns

The turns of a member of the consumer group, one by one.

* `Sound`: a member's own fields agree; a queued effect is above everything the reader committed.
* `Change`: what a turn of one member can do, as far as the rest of the group sees it.
* `turned`: every turn of the group is one of those, or a turn of the broker.
-/

namespace PiCloud
namespace EventLog

open Lib

/-! ## One member -/

def Request.generation : Request → Nat
  | .progress _ generation => generation
  | .publication generation => generation

namespace Member

/-- What an assignment has going on belongs to it. -/
structure Current (m : Member) : Prop where
  seeded : m.committed.isSome
  low : m.low ≤ m.position
  processed : m.processed ≤ m.position
  handled : ∀ h ∈ m.handling, h.generation = m.generation →
    m.low ≤ h.record ∧ m.processed ≤ h.record ∧ h.record < m.position
  queued : ∀ h ∈ m.handling, h.generation = m.generation → h.stage = .queued →
    ∀ c ∈ m.committed, c ≤ h.record
  requests : ∀ n, .progress n m.generation ∈ m.requests → n ≤ m.processed
  sending : ∀ x ∈ m.sending, x.generation = m.generation →
    ∀ n, x.write = .progress n → n ≤ m.processed

structure Sound (m : Member) : Prop where
  joining : m.joining → m.assigned = false
  handling_le : ∀ h ∈ m.handling, h.generation ≤ m.generation
  requests_le : ∀ r ∈ m.requests, r.generation ≤ m.generation
  sending_le : ∀ x ∈ m.sending, x.generation ≤ m.generation
  /-- a record is handled and a commit is sent in an assignment only -/
  handling_lt : m.assigned = false → ∀ h ∈ m.handling, h.generation < m.generation
  requests_lt : m.assigned = false → ∀ n g, .progress n g ∈ m.requests → g < m.generation
  sending_lt : m.assigned = false → ∀ x ∈ m.sending, x.generation < m.generation
  current : m.assigned = true → Current m
  seen : ∀ c ∈ m.committed, c ≤ max m.low (m.seen.getD 0)
  /-- the handler waits for the effect that is sent -/
  effect : ∀ x ∈ m.sending, ∀ p, x.write = .effect p →
    m.handling = some ⟨p, x.generation, .sending⟩
  above : ∀ x ∈ m.sending, x.generation = m.generation → x.write.isCommit →
    ∃ c, m.committed = some c ∧ c < x.write.offset
  plain : ∀ x ∈ m.sending, x.write.isCommit → x.stage ≠ .producing
  group : ∀ x ∈ m.sending, ∃ g ∈ m.group, x.group ≤ g
  older : m.joining → ∀ x ∈ m.sending, ∀ g ∈ m.group, x.group < g

theorem sound_empty : Sound {} where
  joining := nofun
  handling_le := nofun
  requests_le := nofun
  sending_le := nofun
  handling_lt := nofun
  requests_lt := nofun
  sending_lt := nofun
  current := nofun
  seen := nofun
  effect := nofun
  above := nofun
  plain := nofun
  group := nofun
  older := nofun

theorem Sound.revoke {m : Member} (h : Sound m) : Sound m.revoke where
  joining _ := rfl
  handling_le x hx := Nat.le_succ_of_le (h.handling_le x hx)
  requests_le r hr := Nat.le_succ_of_le (h.requests_le r hr)
  sending_le x hx := Nat.le_succ_of_le (h.sending_le x hx)
  handling_lt _ x hx := Nat.lt_succ_of_le (h.handling_le x hx)
  requests_lt _ n g hr := Nat.lt_succ_of_le (h.requests_le _ hr)
  sending_lt _ x hx := Nat.lt_succ_of_le (h.sending_le x hx)
  current := nofun
  seen := nofun
  effect := h.effect
  above x hx hg := by
    have := h.sending_le x hx
    rw [hg] at this
    exact absurd this (Nat.not_succ_le_self _)
  plain := h.plain
  group := h.group
  older := nofun

theorem Sound.joined {m : Member} (h : Sound m) {group : Nat} (hlt : ∀ g ∈ m.group, g < group) :
    Sound { m.revoke with group := some group, joining := true, doubt := 0 } :=
  have hx : ∀ x ∈ m.sending, x.group < group := fun x hx =>
    have ⟨g, hg, hle⟩ := h.group x hx
    Nat.lt_of_le_of_lt hle (hlt g hg)
  { h.revoke with
    joining := fun _ => rfl
    current := nofun
    group := fun x hm => ⟨group, rfl, Nat.le_of_lt (hx x hm)⟩
    older := fun _ x hm g hg => by
      cases hg
      exact hx x hm }

theorem Sound.seeded {m : Member} (h : Sound m) (hj : m.joining = true) (low : Nat)
    (offset : Option Nat) :
    Sound { m with committed := some (max low (offset.getD 0)), seen := offset, low } :=
  have hassigned := h.joining hj
  { h with
    current := fun hasg => by simp [hassigned] at hasg
    seen := fun c hc => by
      cases hc
      exact Nat.le_refl _
    above := fun x hx hg => by
      have := h.sending_lt hassigned x hx
      have hg' : x.generation = m.generation := hg
      omega }

theorem Sound.assign {m : Member} (h : Sound m) (hj : m.joining = true)
    (hc : m.committed.isSome) {start : Nat} (hlow : m.low ≤ start) :
    Sound { m with joining := false, assigned := true, position := start, processed := start } :=
  have hassigned := h.joining hj
  { h with
    joining := nofun
    handling_lt := nofun
    requests_lt := nofun
    sending_lt := nofun
    older := nofun
    current := fun _ =>
      { seeded := hc
        low := hlow
        processed := Nat.le_refl _
        handled := fun x hx hg => absurd hg (Nat.ne_of_lt (h.handling_lt hassigned x hx))
        queued := fun x hx hg => absurd hg (Nat.ne_of_lt (h.handling_lt hassigned x hx))
        requests := fun n hn => absurd (h.requests_lt hassigned n _ hn) (Nat.lt_irrefl _)
        sending := fun x hx hg => absurd hg (Nat.ne_of_lt (h.sending_lt hassigned x hx)) } }

theorem Sound.deliver {m : Member} (h : Sound m) (ha : m.assigned = true)
    (hn : m.handling = none) {record : Nat} (hle : m.position ≤ record) :
    Sound { m with
      position := record + 1, handling := some { record, generation := m.generation } } :=
  have hc := h.current ha
  { h with
    handling_le := fun x hx => by
      cases hx
      exact Nat.le_refl _
    handling_lt := fun hf => by simp [ha] at hf
    current := fun _ =>
      { seeded := hc.seeded
        low := Nat.le_succ_of_le (Nat.le_trans hc.low hle)
        processed := Nat.le_succ_of_le (Nat.le_trans hc.processed hle)
        handled := fun x hx _ => by
          cases hx
          exact ⟨Nat.le_trans hc.low hle, Nat.le_trans hc.processed hle, Nat.lt_succ_self _⟩
        queued := fun x hx _ hs => by
          cases hx
          cases hs
        requests := hc.requests
        sending := hc.sending }
    effect := fun x hx p hp => by
      have := h.effect x hx p hp
      rw [hn] at this
      cases this }

theorem Sound.queue {m : Member} (h : Sound m) {x : Handling} (hx : m.handling = some x)
    (hidle : x.stage = .idle) (hseen : m.seen.all (· < x.record + 1) = true) :
    Sound (m.setStage .queued) := by
  have heff : ∀ y ∈ m.sending, ∀ p, y.write ≠ .effect p := by
    intro y hy p hp
    have := h.effect y hy p hp
    rw [hx] at this
    cases this
    cases hidle
  refine
    { h with
      handling_le := fun y hy => ?_
      handling_lt := fun ha y hy => ?_
      current := fun ha => ?_
      effect := fun y hy p hp => absurd hp (heff y hy p) }
  · simp only [setStage, hx, Option.map_some, Option.mem_def, Option.some.injEq] at hy
    subst hy
    exact h.handling_le x hx
  · simp only [setStage, hx, Option.map_some, Option.mem_def, Option.some.injEq] at hy
    subst hy
    exact h.handling_lt ha x hx
  · have hc := h.current ha
    refine { hc with handled := fun y hy hg => ?_, queued := fun y hy hg _ c hcm => ?_ }
    · simp only [setStage, hx, Option.map_some, Option.mem_def, Option.some.injEq] at hy
      subst hy
      exact hc.handled x hx hg
    · simp only [setStage, hx, Option.map_some, Option.mem_def, Option.some.injEq] at hy
      subst hy
      -- the reader's cache is no further than the consumer's, or where the partition begins
      have hlow := (hc.handled x hx hg).1
      have hle := h.seen c hcm
      cases hs : m.seen with
      | none =>
        rw [hs] at hle
        simp only [Option.getD_none] at hle
        show c ≤ x.record
        omega
      | some n =>
        rw [hs] at hle hseen
        simp only [Option.all_some, decide_eq_true_eq] at hseen
        simp only [Option.getD_some] at hle
        show c ≤ x.record
        omega

theorem Sound.setStage {m : Member} (h : Sound m) {stage : EffectStage} (hst : stage ≠ .queued)
    (heff : ∀ y ∈ m.sending, ∀ p, y.write ≠ .effect p) : Sound (m.setStage stage) := by
  have hmem : ∀ y ∈ (m.setStage stage).handling,
      ∃ x ∈ m.handling, x.record = y.record ∧ x.generation = y.generation ∧ y.stage = stage := by
    intro y hy
    obtain ⟨x, hx, rfl⟩ := Option.map_eq_some_iff.mp hy
    exact ⟨x, hx, rfl, rfl, rfl⟩
  refine
    { h with
      handling_le := fun y hy => ?_
      handling_lt := fun ha y hy => ?_
      current := fun ha => ?_
      effect := fun y hy p hp => absurd hp (heff y hy p) }
  · obtain ⟨x, hx, _, hg, _⟩ := hmem y hy
    exact hg ▸ h.handling_le x hx
  · obtain ⟨x, hx, _, hg, _⟩ := hmem y hy
    exact hg ▸ h.handling_lt ha x hx
  · have hc := h.current ha
    refine { hc with handled := fun y hy hyg => ?_, queued := fun y hy _ hs => ?_ }
    · obtain ⟨x, hx, hr, hg, _⟩ := hmem y hy
      exact hr ▸ hc.handled x hx (hg.trans hyg)
    · obtain ⟨_, _, _, _, hi⟩ := hmem y hy
      exact absurd (hi.symm.trans hs) hst

theorem Sound.settle {m : Member} (h : Sound m) {x : Handling} (hx : m.handling = some x)
    (hidle : x.stage = .idle) {position processed : Nat}
    (hp : m.assigned = true →
      m.low ≤ position ∧ processed ≤ position ∧ m.processed ≤ processed) :
    Sound { m with handling := none, position, processed } :=
  { h with
    handling_le := nofun
    handling_lt := fun _ => nofun
    current := fun ha =>
      have hc := h.current ha
      have ⟨hlow, hle, hmono⟩ := hp ha
      { seeded := hc.seeded
        low := hlow
        processed := hle
        handled := nofun
        queued := nofun
        requests := fun n hn => Nat.le_trans (hc.requests n hn) hmono
        sending := fun y hy hg n hn => Nat.le_trans (hc.sending y hy hg n hn) hmono }
    effect := fun y hy p hp => by
      have := h.effect y hy p hp
      rw [hx] at this
      cases this
      cases hidle }

theorem Sound.position {m : Member} (h : Sound m) (hn : m.handling = none) {offset : Nat}
    (ha : m.assigned = true) (hle : m.position ≤ offset) :
    Sound { m with position := offset, processed := max m.processed offset } :=
  have hc := h.current ha
  { h with
    current := fun _ =>
      { seeded := hc.seeded
        low := Nat.le_trans hc.low hle
        processed := Nat.max_le.mpr ⟨Nat.le_trans hc.processed hle, Nat.le_refl _⟩
        handled := fun y hy => by
          rw [hn] at hy
          cases hy
        queued := hc.queued
        requests := fun n hr => Nat.le_trans (hc.requests n hr) (Nat.le_max_left _ _)
        sending := fun y hy hg n hw =>
          Nat.le_trans (hc.sending y hy hg n hw) (Nat.le_max_left _ _) } }

theorem Sound.request {m : Member} (h : Sound m) (r : Request) (hr : r.generation = m.generation)
    (hp : ∀ n g, r = .progress n g → m.assigned = true ∧ n ≤ m.processed) :
    Sound { m with requests := m.requests ++ [r] } := by
  have hmem : ∀ q ∈ m.requests ++ [r], q ∈ m.requests ∨ q = r := by
    intro q hq
    simpa using hq
  refine { h with
    requests_le := fun q hq => ?_
    requests_lt := fun ha n g hq => ?_
    current := fun ha => { h.current ha with requests := fun n hq => ?_ } }
  · cases hmem q hq with
    | inl hq => exact h.requests_le q hq
    | inr hq =>
      subst hq
      exact Nat.le_of_eq hr
  · cases hmem _ hq with
    | inl hq => exact h.requests_lt ha n g hq
    | inr hq =>
      have := (hp n g hq.symm).1
      have ha' : m.assigned = false := ha
      rw [ha'] at this
      cases this
  · cases hmem _ hq with
    | inl hq => exact (h.current ha).requests n hq
    | inr hq => exact (hp n _ hq.symm).2

theorem Sound.rest {m : Member} (h : Sound m) {r : Request} {rest : List Request}
    (hr : m.requests = r :: rest) : Sound { m with requests := rest } :=
  have hsub : ∀ q ∈ rest, q ∈ m.requests := fun _ hq => hr ▸ List.mem_cons_of_mem _ hq
  { h with
    requests_le := fun q hq => h.requests_le q (hsub q hq)
    requests_lt := fun ha n g hq => h.requests_lt ha n g (hsub _ hq)
    current := fun ha =>
      { h.current ha with requests := fun n hq => (h.current ha).requests n (hsub _ hq) } }

/-! The commit lock -/

theorem Sound.free {m : Member} (h : Sound m) : Sound { m with sending := none } :=
  { h with
    sending_le := nofun
    sending_lt := fun _ => nofun
    current := fun ha => { h.current ha with sending := nofun }
    effect := nofun
    above := nofun
    plain := nofun
    group := nofun
    older := fun _ => nofun }

theorem Sound.release {m : Member} (h : Sound m) (x : Sending) : Sound (m.release x) := by
  unfold Member.release
  split
  · exact h.free.setStage (by simp) nofun
  · exact h.free

@[simp] theorem release_sending (m : Member) (x : Sending) : (m.release x).sending = none := by
  unfold Member.release
  split <;> rfl

@[simp] theorem release_generation (m : Member) (x : Sending) :
    (m.release x).generation = m.generation := by
  unfold Member.release
  split <;> rfl

@[simp] theorem release_group (m : Member) (x : Sending) : (m.release x).group = m.group := by
  unfold Member.release
  split <;> rfl

@[simp] theorem release_committed (m : Member) (x : Sending) :
    (m.release x).committed = m.committed := by
  unfold Member.release
  split <;> rfl

theorem Sound.commit {m : Member} (h : Sound m) (hs : m.sending = none) {offset : Nat}
    {seen : Option Nat} (hseen : offset ≤ seen.getD 0)
    (hq : ∀ x ∈ m.handling, x.generation = m.generation → x.stage = .queued →
      m.assigned = true → offset ≤ x.record) :
    Sound { m with committed := some offset, seen } :=
  { h with
    current := fun ha =>
      { h.current ha with
        seeded := rfl
        queued := fun x hx hg hst c hc => by
          cases hc
          exact hq x hx hg hst ha }
    seen := fun c hc => by
      cases hc
      exact Nat.le_trans hseen (Nat.le_max_right _ _)
    above := fun x hx => by
      rw [hs] at hx
      cases hx }

theorem Sound.receive {m : Member} (h : Sound m) {x : Sending} (hx : m.sending = some x) :
    Sound (m.receive x) := by
  unfold Member.receive
  split
  · rename_i hg
    split
    · rename_i p hp
      refine (h.release x).commit (release_sending m x) (Nat.le_refl _) (fun y hy _ hst => ?_)
      -- the handler that waited for this receipt goes on
      rw [Member.release, hp] at hy
      obtain ⟨z, _, rfl⟩ := Option.map_eq_some_iff.mp hy
      cases hst
    · rename_i n hp
      refine (h.release x).commit (release_sending m x) ?_ (fun y hy hyg hst ha => ?_)
      · cases hs : m.seen with
        | none => simp
        | some k =>
          simp only [Option.all_some, decide_eq_true_eq]
          split
          · simp
          · simp only [Option.getD_some]
            omega
      · rw [Member.release, hp] at hy hyg ha
        have hc := h.current ha
        exact Nat.le_trans (hc.sending x hx hg n hp) (hc.handled y hy hyg).2.1
    · exact h.release x
  · exact h.release x

theorem Sound.lose {m : Member} (h : Sound m) (x : Sending) : Sound (m.lose x) := by
  unfold Member.lose
  split
  · exact { h.release x with current := fun ha => { (h.release x).current ha with } }
  · exact h.release x

theorem Sound.restage {m : Member} (h : Sound m) {x : Sending} (hx : m.sending = some x)
    {stage : SendStage} (hst : x.write.isCommit → stage ≠ .producing) :
    Sound { m with sending := some { x with stage } } :=
  { h with
    sending_le := fun y hy => by
      cases hy
      exact h.sending_le x hx
    sending_lt := fun ha y hy => by
      cases hy
      exact h.sending_lt ha x hx
    current := fun ha =>
      { h.current ha with
        sending := fun y hy hg n hn => by
          cases hy
          exact (h.current ha).sending x hx hg n hn }
    effect := fun y hy p hp => by
      cases hy
      exact h.effect x hx p hp
    above := fun y hy hg hcm => by
      cases hy
      exact h.above x hx hg hcm
    plain := fun y hy hcm => by
      cases hy
      exact hst hcm
    group := fun y hy => by
      cases hy
      exact h.group x hx
    older := fun hj y hy => by
      cases hy
      exact h.older hj x hx }

theorem Sound.start {m : Member} (h : Sound m) (ha : m.assigned = true)
    {write : Write} {stage : SendStage}
    (heff : ∀ p, write = .effect p → m.handling = some ⟨p, m.generation, .sending⟩)
    (hprog : ∀ n, write = .progress n → n ≤ m.processed)
    (hover : write.isCommit → ∃ c, m.committed = some c ∧ c < write.offset)
    (hst : write.isCommit → stage ≠ .producing) : Sound (m.start write stage) := by
  unfold Member.start
  split
  · rename_i group hg
    exact
      { h with
        sending_le := fun y hy => by
          cases hy
          exact Nat.le_refl _
        sending_lt := fun hf => by simp [ha] at hf
        current := fun ha =>
          { h.current ha with
            sending := fun y hy _ n hn => by
              cases hy
              exact hprog n hn }
        effect := fun y hy p hp => by
          cases hy
          exact heff p hp
        above := fun y hy _ hcm => by
          cases hy
          exact hover hcm
        plain := fun y hy hcm => by
          cases hy
          exact hst hcm
        group := fun y hy => by
          cases hy
          exact ⟨group, hg, Nat.le_refl _⟩
        older := fun hj => by
          have := h.joining hj
          rw [ha] at this
          cases this }
  · exact h

end Member

/-! ## What a turn can do -/

open Member (Sound)

/-- The receipt of a commit reaches the assignment that sent it. -/
structure Received (m m' : Member) (x : Sending) : Prop where
  sending : m.sending = some x
  accepted : x.stage = .accepted
  commit : x.write.isCommit
  current : x.generation = m.generation
  free : m'.sending = none
  generation : m'.generation = m.generation
  group : m'.group = m.group
  committed : m'.committed = some x.write.offset
  doubt : m'.doubt = m.doubt

/-- A turn of member `i`, as far as the group is concerned. -/
inductive Change (s : EffectGroup) (i : Nat) (m m' : Member) : Prop where
  | quiet : m'.generation = m.generation → m'.group = m.group → m'.committed = m.committed →
      m'.sending = m.sending → m'.doubt = m.doubt → Change s i m m'
  | revoked : m'.committed = none → m'.sending = m.sending → m'.group = m.group →
      m'.doubt = m.doubt → Change s i m m'
  | joined (g : Nat) : m'.committed = none → m'.sending = m.sending → m'.group = some g →
      g ≤ s.generation → s.owners g = some i → (∀ x ∈ m.sending, x.group < g) → Change s i m m'
  | seeded (low : Nat) : m'.group = m.group → m'.sending = m.sending →
      (∀ x ∈ m.sending, ∃ g ∈ m.group, x.group < g) → Register.Stable s.log →
      m'.committed = some (max low (s.offset.getD 0)) → Change s i m m'
  | started (x : Sending) (c : Nat) : m'.generation = m.generation → m'.group = m.group →
      m'.committed = m.committed → m'.doubt = m.doubt → m.sending = none →
      m'.sending = some x → x.generation = m.generation → m.group = some x.group →
      x.stage ≠ .accepted → m.committed = some c → c ≤ x.write.offset →
      (x.write.isCommit → c < x.write.offset) →
      (x.write.isCommit = false → x.write.offset ≤ c) → Change s i m m'
  | restaged (x : Sending) (stage : SendStage) : m'.generation = m.generation →
      m'.group = m.group → m'.committed = m.committed → m'.doubt = m.doubt →
      m.sending = some x → m'.sending = some { x with stage } → x.stage ≠ .accepted →
      stage ≠ .accepted → Change s i m m'
  | released (x : Sending) : m'.generation = m.generation → m'.group = m.group →
      m'.committed = m.committed → m.sending = some x → m'.sending = none →
      m.doubt ≤ m'.doubt → (x.stage = .accepted → x.write.isCommit →
        x.generation = m.generation → x.write.offset ≤ m'.doubt) → Change s i m m'
  | received (x : Sending) : Received m m' x → (∀ p, x.write ≠ .effect p) → Change s i m m'
  | crashed : m' = {} → Change s i m m'

inductive Turned (s : EffectGroup) : EffectTurn → EffectGroup → Prop where
  | member {a : EffectTurn} (i : Nat) (m : Member) : Sound m → Change s i (s.members i) m →
      Turned s a (s.setMember i m)
  | ran {a : EffectTurn} (i : Nat) (m : Member) (x : Sending) (p : Nat) : Sound m →
      Received (s.members i) m x → x.write = .effect p →
      Turned s a ((s.setMember i m).runEffect p)
  | rebalanced {a : EffectTurn} (owner : Option Nat) : Turned s a { s with
      generation := s.generation + 1
      owners := Function.update s.owners (s.generation + 1) owner }
  | accepted (i : Nat) (x : Sending) : (s.members i).sending = some x → x.stage = .inFlight →
      x.group = s.generation →
      Sound { s.members i with sending := some { x with stage := .accepted } } →
      Turned s (.accept i) { s.setMember i
        { s.members i with sending := some { x with stage := .accepted } } with
        log :=
          { value := x.write.offset
            status := if x.write.isCommit then .taken else .undecided } :: s.log }
  | resolved {a : EffectTurn} (entry : Nat) (keep : Bool) :
      Turned s a { s with log := Register.resolve s.log entry keep }

theorem Change.self {s : EffectGroup} {i : Nat} : Change s i (s.members i) (s.members i) :=
  .quiet rfl rfl rfl rfl rfl

theorem setMember_self (s : EffectGroup) (i : Nat) : s.setMember i (s.members i) = s := by
  unfold EffectGroup.setMember
  rw [Function.update_eq_self]

theorem Change.lose {s : EffectGroup} {i : Nat} {x : Sending}
    (hx : (s.members i).sending = some x) : Change s i (s.members i) ((s.members i).lose x) := by
  unfold Member.lose
  split
  · exact .released x (by simp) (by simp) (by simp) hx (by simp) (Nat.le_max_left _ _)
      (fun _ _ _ => Nat.le_max_right _ _)
  · rename_i hn
    refine .released x (by simp) (by simp) (by simp) hx (by simp) ?_ (fun h₁ h₂ h₃ => ?_)
    · unfold Member.release
      split <;> exact Nat.le_refl _
    · exact absurd ⟨h₁, h₂, h₃⟩ hn

theorem Change.release {s : EffectGroup} {i : Nat} {x : Sending}
    (hx : (s.members i).sending = some x)
    (h : x.stage = .accepted → x.write.isCommit → x.generation ≠ (s.members i).generation) :
    Change s i (s.members i) ((s.members i).release x) := by
  have hl := Change.lose hx
  unfold Member.lose at hl
  rwa [if_neg (fun hc => h hc.1 hc.2.1 hc.2.2)] at hl

theorem receive_received {m : Member} {x : Sending} (hx : m.sending = some x)
    (ha : x.stage = .accepted) (hc : x.write.isCommit) (hg : x.generation = m.generation) :
    Received m (m.receive x) x := by
  have hd : (m.release x).doubt = m.doubt := by
    unfold Member.release
    split <;> rfl
  unfold Member.receive
  rw [if_pos hg]
  cases hw : x.write with
  | effect p => exact ⟨hx, ha, hc, hg, by simp, by simp, by simp, by simp [hw, Write.offset], hd⟩
  | progress n => exact ⟨hx, ha, hc, hg, by simp, by simp, by simp, by simp [hw, Write.offset], hd⟩
  | publication n => simp [hw, Write.isCommit] at hc

theorem receive_released {m : Member} {x : Sending}
    (h : x.write.isCommit → x.generation ≠ m.generation) : m.receive x = m.release x := by
  unfold Member.receive
  split
  · rename_i hg
    cases hw : x.write with
    | effect p => exact absurd hg (h (by simp [hw, Write.isCommit]))
    | progress n => exact absurd hg (h (by simp [hw, Write.isCommit]))
    | publication n => rfl
  · rfl

theorem Change.start {s : EffectGroup} {i : Nat} {m : Member} {write : Write} {stage : SendStage}
    {c : Nat} (hm : (s.members i).generation = m.generation ∧ (s.members i).group = m.group ∧
      (s.members i).committed = m.committed ∧ (s.members i).sending = m.sending ∧
      (s.members i).doubt = m.doubt)
    (hs : m.sending = none) (hst : stage ≠ .accepted) (hc : m.committed = some c)
    (hle : c ≤ write.offset) (hlt : write.isCommit → c < write.offset)
    (heq : write.isCommit = false → write.offset ≤ c) :
    Change s i (s.members i) (m.start write stage) := by
  obtain ⟨h₁, h₂, h₃, h₄, h₅⟩ := hm
  unfold Member.start
  split
  · rename_i group hg
    exact .started { write, generation := m.generation, group, stage } c h₁.symm h₂.symm h₃.symm
      h₅.symm (h₄.trans hs) rfl h₁.symm (h₂.trans hg) hst (h₃.trans hc) hle hlt heq
  · exact .quiet h₁.symm h₂.symm h₃.symm h₄.symm h₅.symm

theorem turned_serve {s : EffectGroup} {i : Nat} {m : Member} (hsound : Sound m)
    (hm : (s.members i).generation = m.generation ∧ (s.members i).group = m.group ∧
      (s.members i).committed = m.committed ∧ (s.members i).sending = m.sending ∧
      (s.members i).doubt = m.doubt)
    (hs : m.sending = none) {r : Request}
    (hr : ∀ n, r = .progress n m.generation → m.assigned = true → n ≤ m.processed) :
    Sound (m.serve r) ∧ Change s i (s.members i) (m.serve r) := by
  have hquiet : Change s i (s.members i) m :=
    .quiet hm.1.symm hm.2.1.symm hm.2.2.1.symm hm.2.2.2.1.symm hm.2.2.2.2.symm
  cases r with
  | progress offset generation =>
    unfold Member.serve
    dsimp only
    split
    · rename_i hg
      obtain ⟨rfl, ha⟩ := hg
      obtain ⟨c, hc⟩ := Option.isSome_iff_exists.mp (hsound.current ha).seeded
      split
      · rename_i hlt
        simp only [hc, Option.all_some, decide_eq_true_eq] at hlt
        exact ⟨hsound.start ha nofun (fun n hn => by cases hn; exact hr offset rfl ha)
          (fun _ => ⟨c, hc, hlt⟩) (fun _ => nofun),
          .start hm hs nofun hc (Nat.le_of_lt hlt) (fun _ => hlt) nofun⟩
      · exact ⟨hsound, hquiet⟩
    · exact ⟨hsound, hquiet⟩
  | publication generation =>
    unfold Member.serve
    dsimp only
    split
    · rename_i hg
      split
      · rename_i c hc
        exact ⟨hsound.start hg.2 nofun nofun nofun nofun,
          .start hm hs nofun hc (Nat.le_refl _) nofun (fun _ => Nat.le_refl _)⟩
      · exact ⟨hsound, hquiet⟩
    · exact ⟨hsound, hquiet⟩

theorem turned {s t : EffectGroup} {a : EffectTurn} (hsound : ∀ i, Sound (s.members i))
    (h : s.act a = some t) : Turned s a t := by
  cases a with
  | rebalance owner =>
    cases h
    exact .rebalanced owner
  | revoked i =>
    cases h
    exact .member i _ (hsound i).revoke (.revoked rfl rfl rfl rfl)
  | joined i group =>
    obtain ⟨hg, rfl⟩ := ite_some h
    have hlt : ∀ g ∈ (s.members i).group, g < group := by
      intro g hgm
      rw [Option.mem_def] at hgm
      simpa [hgm] using hg.2.2
    have hm := (hsound i).joined hlt
    exact .member i _ hm
      (.joined group rfl rfl rfl hg.1 hg.2.1 (fun x hx => hm.older rfl x hx group rfl))
  | seed i low =>
    obtain ⟨hg, rfl⟩ := ite_some h
    refine .member i _ ((hsound i).seeded hg.1 low s.offset)
      (.seeded low rfl rfl (fun x hx => ?_) hg.2.2 rfl)
    obtain ⟨g, hgm, _⟩ := (hsound i).group x hx
    exact ⟨g, hgm, (hsound i).older hg.1 x hx g hgm⟩
  | assign i start =>
    simp only [EffectGroup.act] at h
    split at h
    · rename_i hg
      cases h
      exact .member i _ ((hsound i).assign hg.1 hg.2.1 hg.2.2) (.quiet rfl rfl rfl rfl rfl)
    · cases h
  | deliver i record =>
    simp only [EffectGroup.act] at h
    split at h
    · rename_i hg
      cases h
      exact .member i _ ((hsound i).deliver hg.1 (Option.isNone_iff_eq_none.mp hg.2.1) hg.2.2)
        (.quiet rfl rfl rfl rfl rfl)
    · cases h
  | callEffect i =>
    simp only [EffectGroup.act] at h
    split at h
    · rename_i x hx
      split at h
      · rename_i hidle
        split at h
        · rename_i hg
          cases h
          exact .member i _ ((hsound i).queue hx hidle hg.2) (.quiet rfl rfl rfl rfl rfl)
        · cases h
          have := Turned.member (a := .callEffect i) i (s.members i) (hsound i) .self
          rwa [setMember_self] at this
      · cases h
    · cases h
  | settle i ok =>
    simp only [EffectGroup.act] at h
    split at h
    · rename_i x hx
      split at h
      · rename_i hidle
        split at h
        · rename_i hg
          split at h
          · cases h
            refine .member i _ ((hsound i).settle hx hidle (fun ha => ?_))
              (.quiet rfl rfl rfl rfl rfl)
            have hc := (hsound i).current ha
            have := hc.handled x hx hg
            exact ⟨hc.low, by omega, by omega⟩
          · cases h
            refine .member i _ ((hsound i).settle hx hidle (fun ha => ?_))
              (.quiet rfl rfl rfl rfl rfl)
            have := ((hsound i).current ha).handled x hx hg
            exact ⟨this.1, this.2.1, Nat.le_refl _⟩
        · cases h
          refine .member i _ ((hsound i).settle hx hidle (fun ha => ?_))
            (.quiet rfl rfl rfl rfl rfl)
          have hc := (hsound i).current ha
          exact ⟨hc.low, hc.processed, Nat.le_refl _⟩
      · cases h
    · cases h
  | position i offset =>
    obtain ⟨hg, rfl⟩ := ite_some h
    exact .member i _
      ((hsound i).position (Option.isNone_iff_eq_none.mp hg.2.1) hg.1 hg.2.2)
      (.quiet rfl rfl rfl rfl rfl)
  | progress i =>
    obtain ⟨hg, rfl⟩ := ite_some h
    refine .member i _ ((hsound i).request (.progress _ _) rfl (fun n g hn => ?_))
      (.quiet rfl rfl rfl rfl rfl)
    cases hn
    exact ⟨hg.1, Nat.le_refl _⟩
  | publish i =>
    cases h
    exact .member i _ ((hsound i).request (.publication _) rfl nofun) (.quiet rfl rfl rfl rfl rfl)
  | acquireEffect i =>
    simp only [EffectGroup.act] at h
    split at h
    · rename_i x hx
      split at h
      · rename_i hst
        have hs := Option.isNone_iff_eq_none.mp hst.2
        have heff : ∀ y ∈ (s.members i).sending, ∀ p, y.write ≠ .effect p := by
          intro y hy
          rw [hs] at hy
          cases hy
        split at h
        · rename_i hg
          have hc := (hsound i).current hg.2
          obtain ⟨c, hcm⟩ := Option.isSome_iff_exists.mp hc.seeded
          -- nothing was committed past the record since it was queued
          have hle := hc.queued x hx hg.1 hst.1 c hcm
          split at h
          · cases h
            have hm : Sound ((s.members i).setStage .sending) := (hsound i).setStage nofun heff
            refine .member i _ (hm.start hg.2 (fun p hp => ?_) nofun
              (fun _ => ⟨c, hcm, Nat.lt_succ_of_le hle⟩) (fun _ => nofun))
              (.start ⟨rfl, rfl, rfl, rfl, rfl⟩ hs nofun hcm (Nat.le_succ_of_le hle)
                (fun _ => Nat.lt_succ_of_le hle) nofun)
            cases hp
            obtain ⟨record, generation, stage⟩ := x
            obtain ⟨hgx, _⟩ := hg
            dsimp only at hgx
            simp [Member.setStage, hx, hgx]
          · rename_i hn
            simp only [hcm, Option.all_some, decide_eq_true_eq] at hn
            omega
        · cases h
          exact .member i _ ((hsound i).setStage nofun heff) (.quiet rfl rfl rfl rfl rfl)
      · cases h
    · cases h
  | acquire i =>
    simp only [EffectGroup.act] at h
    split at h
    · rename_i r rest hr
      obtain ⟨hs, rfl⟩ := ite_some h
      have ⟨hm, hc⟩ := turned_serve (s := s) (i := i) ((hsound i).rest hr)
        ⟨rfl, rfl, rfl, rfl, rfl⟩ (Option.isNone_iff_eq_none.mp hs) (r := r) (fun n hn ha => by
          refine ((hsound i).current ha).requests n ?_
          rw [hr, hn]
          exact List.mem_cons_self)
      exact .member i _ hm hc
    · cases h
  | offer i =>
    simp only [EffectGroup.act] at h
    split at h
    · rename_i x hx
      split at h
      · rename_i hst
        split at h
        · cases h
          exact .member i _ ((hsound i).restage hx (fun _ => nofun))
            (.restaged x .inFlight rfl rfl rfl rfl hx rfl (by simp [hst]) nofun)
        · cases h
          exact .member i _ ((hsound i).release x) (.release hx (by simp [hst]))
      · cases h
    · cases h
  | accept i =>
    simp only [EffectGroup.act] at h
    split at h
    · rename_i x hx
      obtain ⟨hst, rfl⟩ := ite_some h
      exact .accepted i x hx hst.1 hst.2 ((hsound i).restage hx (fun _ => nofun))
    · cases h
  | resolve entry keep =>
    cases h
    exact .resolved entry keep
  | acknowledge i =>
    simp only [EffectGroup.act] at h
    split at h
    · rename_i x hx
      split at h
      · rename_i hst
        have hm := (hsound i).receive hx
        split at h
        · rename_i p hp
          have hcm : x.write.isCommit = true := by simp [hp, Write.isCommit]
          split at h
          · rename_i hg
            cases h
            exact .ran i _ x p hm (receive_received hx hst hcm hg) hp
          · rename_i hg
            cases h
            rw [receive_released (fun _ => hg)] at hm ⊢
            exact .member i _ hm (.release hx (fun _ _ => hg))
        · rename_i hne
          cases h
          by_cases hg : x.write.isCommit = true ∧ x.generation = (s.members i).generation
          · exact .member i _ hm (.received x (receive_received hx hst hg.1 hg.2) hne)
          · rw [receive_released (fun h₁ h₂ => hg ⟨h₁, h₂⟩)] at hm ⊢
            exact .member i _ hm (.release hx (fun _ h₁ h₂ => hg ⟨h₁, h₂⟩))
      · cases h
    · cases h
  | lose i =>
    simp only [EffectGroup.act] at h
    split at h
    · rename_i x hx
      cases h
      exact .member i _ ((hsound i).lose x) (.lose hx)
    · cases h
  | crash i =>
    cases h
    exact .member i _ Member.sound_empty (.crashed rfl)

end EventLog
end PiCloud
