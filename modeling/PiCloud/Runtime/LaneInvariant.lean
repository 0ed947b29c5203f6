import Mathlib.Logic.Equiv.Basic
import PiCloud.Runtime.SessionQuarantine

/-!
# Runtime.LaneInvariant

What every operation keeps of a session and its Runs.

* `Rows`: started and ready Runs are preceded by terminal Runs only, so at most one is active.
* `Lane.Inv`: an active Run has a running session; a failed session has its failed Run, which is
  the last one started.
* `Lane.Stopped`: the exit and the seal of the failed Run, with no later execution.
-/

namespace PiCloud
namespace Runtime
namespace Quarantine

open Lib

namespace Run

def front (r : Run) : Prop := r.startedAt = true ∨ r.readyAt = true

/-- An owner, a seal or activity comes with a start; a queued Run has no owner. -/
structure Sound (r : Run) : Prop where
  owned : r.leaseId.isSome = true → r.startedAt = true
  requested : r.outputSeal.isSome = true → r.startedAt = true
  sealed : r.outputSealedAt = true → r.startedAt = true
  active : r.state.active = true → r.startedAt = true
  queued : r.state = .queued → r.leaseId = none ∧ r.outputSeal = none

theorem Sound.begun {r : Run} (hs : r.Sound) (h : r.startedAt = false) : r.begun = false := by
  unfold Run.begun
  rw [h, Bool.false_or]
  cases hl : r.leaseId with
  | none => rfl
  | some lease => rw [hs.owned (by rw [hl]; rfl)] at h; cases h

/-- The columns that readiness and pruning leave alone. -/
structure Same (r p : Run) : Prop where
  position : p.mailboxPosition = r.mailboxPosition
  state : p.state = r.state
  started : p.startedAt = r.startedAt
  lease : p.leaseId = r.leaseId
  requested : p.outputSeal = r.outputSeal
  sealed : p.outputSealedAt = r.outputSealedAt
  exited : p.agentExitedAt = r.agentExitedAt

theorem Same.refl (r : Run) : r.Same r := ⟨rfl, rfl, rfl, rfl, rfl, rfl, rfl⟩

theorem Same.sound {r p : Run} (h : r.Same p) (hs : r.Sound) : p.Sound where
  owned := by
    rw [h.lease, h.started]
    exact hs.owned
  requested := by
    rw [h.requested, h.started]
    exact hs.requested
  sealed := by
    rw [h.sealed, h.started]
    exact hs.sealed
  active := by
    rw [h.state, h.started]
    exact hs.active
  queued := by
    rw [h.state, h.lease, h.requested]
    exact hs.queued

theorem Same.begun {r p : Run} (h : r.Same p) : p.begun = r.begun := by
  unfold Run.begun
  rw [h.started, h.lease]

end Run

theorem not_active_of_terminal {s : RunState} (h : isTerminalRunState s = true) : s.active = false := by
  cases s <;> first | rfl | cases h

structure Rows (next : Nat) (runs : Table Nat Run) : Prop where
  bounded : ∀ {k r}, runs.get k = some r → r.mailboxPosition < next
  distinct : ∀ {k j r q}, runs.get k = some r → runs.get j = some q →
    r.mailboxPosition = q.mailboxPosition → k = j
  ordered : ∀ {k j r q}, runs.get k = some r → r.front → runs.get j = some q →
    q.mailboxPosition < r.mailboxPosition → isTerminalRunState q.state = true
  sound : ∀ {k r}, runs.get k = some r → r.Sound

namespace Rows

variable {next : Nat} {runs : Table Nat Run} {k j : Nat} {r q : Run}

theorem empty : Rows next .empty where
  bounded h := nomatch h
  distinct h := nomatch h
  ordered h := nomatch h
  sound h := nomatch h

theorem active_unique (hr : Rows next runs) (hk : runs.get k = some r) (hj : runs.get j = some q)
    (ha : r.state.active = true) (hq : q.state.active = true) : k = j := by
  obtain hlt | heq | hlt := Nat.lt_trichotomy r.mailboxPosition q.mailboxPosition
  · have := not_active_of_terminal (hr.ordered hj (.inl ((hr.sound hj).active hq)) hk hlt)
    rw [this] at ha
    cases ha
  · exact hr.distinct hk hj heq
  · have := not_active_of_terminal (hr.ordered hk (.inl ((hr.sound hk).active ha)) hj hlt)
    rw [this] at hq
    cases hq

theorem set (hr : Rows next runs) (hk : runs.get k = some r) {p : Run}
    (hpos : p.mailboxPosition = r.mailboxPosition)
    (hterm : isTerminalRunState r.state = true → isTerminalRunState p.state = true)
    (hfront : p.front → r.front) (hs : p.Sound) : Rows next (runs.set k p) where
  bounded {i x} hx := by
    rw [Table.get_set] at hx
    split at hx
    · cases hx
      rw [hpos]
      exact hr.bounded hk
    · exact hr.bounded hx
  distinct {i i' x y} hx hy heq := by
    rw [Table.get_set] at hx hy
    split at hx <;> split at hy
    · simp only [*]
    · cases hx
      rw [hpos] at heq
      have := hr.distinct hk hy heq
      simp only [*]
    · cases hy
      rw [hpos] at heq
      have := hr.distinct hx hk heq
      simp only [*]
    · exact hr.distinct hx hy heq
  ordered {i i' x y} hx hf hy hlt := by
    rw [Table.get_set] at hx hy
    split at hx <;> split at hy
    · cases hx
      cases hy
      omega
    · cases hx
      rw [hpos] at hlt
      exact hr.ordered hk (hfront hf) hy hlt
    · cases hy
      rw [hpos] at hlt
      exact hterm (hr.ordered hx hf hk hlt)
    · exact hr.ordered hx hf hy hlt
  sound {i x} hx := by
    rw [Table.get_set] at hx
    split at hx
    · cases hx
      exact hs
    · exact hr.sound hx

theorem requeue (hr : Rows next runs) (hk : runs.get k = some r) {p : Run}
    (hpos : p.mailboxPosition = r.mailboxPosition) (ha : r.state.active = true)
    (hs : p.Sound) : Rows next (runs.set k p) := by
  refine hr.set hk hpos ?_ (fun _ => .inl ((hr.sound hk).active ha)) hs
  intro hterm
  rw [not_active_of_terminal hterm] at ha
  cases ha

theorem none_active (hr : Rows next runs) (hk : runs.get k = some r) (ha : r.state.active = true)
    {p : Run} (hp : p.state.active = false) (hj : (runs.set k p).get j = some q) :
    q.state.active = false := by
  rw [Table.get_set] at hj
  split at hj
  · cases hj
    exact hp
  · rename_i hne
    cases hq : q.state.active with
    | false => rfl
    | true => exact absurd (hr.active_unique hj hk hq ha) hne

theorem get_swap {o : Run} (hk : runs.get k = some r) (ho : runs.get j = some o) (hne : k ≠ j)
    (hr : r.state = .queued) (hq : o.state = .queued) (hs : r.startedAt = false)
    (hso : o.startedAt = false) {i : Nat} {x : Run}
    (hx : ((runs.set k { r with mailboxPosition := o.mailboxPosition, readyAt := false }).set j
      { o with mailboxPosition := r.mailboxPosition, readyAt := false }).get i = some x) :
    ∃ y, runs.get (Equiv.swap k j i) = some y ∧ x.mailboxPosition = y.mailboxPosition ∧
      (x = y ∧ i ≠ k ∧ i ≠ j ∨ ¬ x.front ∧ x.state = .queued ∧ y.state = .queued) := by
  rw [Table.get_set, Table.get_set] at hx
  split at hx
  · rename_i hi
    cases hx
    subst hi
    rw [Equiv.swap_apply_right]
    exact ⟨r, hk, rfl, .inr ⟨fun hf => hf.elim (by simp [hso]) nofun, hq, hr⟩⟩
  · split at hx
    · rename_i hi
      cases hx
      subst hi
      rw [Equiv.swap_apply_left]
      exact ⟨o, ho, rfl, .inr ⟨fun hf => hf.elim (by simp [hs]) nofun, hr, hq⟩⟩
    · rename_i hij hik
      rw [Equiv.swap_apply_of_ne_of_ne hik hij]
      exact ⟨x, hx, rfl, .inl ⟨rfl, hik, hij⟩⟩

theorem swap {o : Run} (hrows : Rows next runs) (hk : runs.get k = some r)
    (ho : runs.get j = some o) (hne : k ≠ j)
    (hr : r.state = .queued) (hq : o.state = .queued) (hs : r.startedAt = false)
    (hso : o.startedAt = false) :
    Rows next ((runs.set k { r with mailboxPosition := o.mailboxPosition, readyAt := false }).set j
      { o with mailboxPosition := r.mailboxPosition, readyAt := false }) where
  bounded {i x} hx := by
    obtain ⟨y, hy, hpos, -⟩ := get_swap hk ho hne hr hq hs hso hx
    rw [hpos]
    exact hrows.bounded hy
  distinct {i i' x x'} hx hx' heq := by
    obtain ⟨y, hy, hpos, -⟩ := get_swap hk ho hne hr hq hs hso hx
    obtain ⟨y', hy', hpos', -⟩ := get_swap hk ho hne hr hq hs hso hx'
    rw [hpos, hpos'] at heq
    exact (Equiv.swap k j).injective (hrows.distinct hy hy' heq)
  ordered {i i' x x'} hx hf hx' hlt := by
    obtain ⟨y, hy, hpos, hsame⟩ := get_swap hk ho hne hr hq hs hso hx
    obtain ⟨y', hy', hpos', hsame'⟩ := get_swap hk ho hne hr hq hs hso hx'
    rw [hpos, hpos'] at hlt
    obtain ⟨rfl, -⟩ | ⟨hnot, -⟩ := hsame
    · have hterm := hrows.ordered hy hf hy' hlt
      obtain ⟨rfl, -⟩ | ⟨-, -, hqueued⟩ := hsame'
      · exact hterm
      · rw [hqueued] at hterm
        cases hterm
    · exact absurd hf hnot
  sound {i x} hx := by
    have hsr := hrows.sound hk
    have hso := hrows.sound ho
    rw [Table.get_set, Table.get_set] at hx
    split at hx
    · cases hx
      exact ⟨hso.owned, hso.requested, hso.sealed, hso.active, hso.queued⟩
    · split at hx
      · cases hx
        exact ⟨hsr.owned, hsr.requested, hsr.sealed, hsr.active, hsr.queued⟩
      · exact hrows.sound hx

end Rows

namespace Lane

/-- A Run that has failed, has been asked for its seal, and is the last one started. -/
structure LastFailed (runs : Table Nat Run) (k : Nat) (f : Run) : Prop where
  row : runs.get k = some f
  terminal : isTerminalRunState f.state = true
  started : f.startedAt = true
  requested : f.outputSeal.isSome = true
  last : ∀ {j q}, runs.get j = some q → q.startedAt = true →
    q.mailboxPosition ≤ f.mailboxPosition

structure Inv (l : Lane) : Prop where
  rows : Rows l.nextMailboxPosition l.runs
  active : ∀ {k r}, l.runs.get k = some r → r.state.active = true →
    l.state = .running ∨ l.state = .cancelling
  failing : l.state = .failed → ∃ k f, l.failing = some k ∧ LastFailed l.runs k f

/-- The failed Run has its exit and its seal, and no later Run has begun. -/
def Stopped (l : Lane) : Prop :=
  ∃ k f, l.failing = some k ∧ l.runs.get k = some f ∧ f.agentExitedAt = true ∧
    f.outputSealedAt = true ∧
    ∀ j q, l.runs.get j = some q → f.mailboxPosition < q.mailboxPosition → q.begun = false

theorem Inv.create (kind : SessionKind) (next : Nat) :
    Inv { kind, nextMailboxPosition := next } where
  rows := .empty
  active h := nomatch h
  failing h := nomatch h

namespace Inv

variable {l : Lane} {k : Nat} {r : Run}

theorem setRun (hi : l.Inv) (hk : l.runs.get k = some r) {p : Run}
    (hpos : p.mailboxPosition = r.mailboxPosition)
    (hterm : isTerminalRunState r.state = true → isTerminalRunState p.state = true)
    (hactive : p.state.active = true → r.state.active = true)
    (hstart : p.startedAt = r.startedAt) (hready : p.readyAt = true → r.readyAt = true)
    (hseal : r.outputSeal.isSome = true → p.outputSeal.isSome = true) (hs : p.Sound) :
    (l.setRun k p).Inv where
  rows := by
    refine hi.rows.set hk hpos hterm ?_ hs
    intro hf
    obtain hf | hf := hf
    · exact .inl (hstart ▸ hf)
    · exact .inr (hready hf)
  active {j q} hj hq := by
    unfold Lane.setRun at hj
    rw [Table.get_set] at hj
    split at hj
    · cases hj
      exact hi.active hk (hactive hq)
    · exact hi.active hj hq
  failing hf := by
    obtain ⟨i, f, hif, hlast⟩ := hi.failing hf
    unfold Lane.setRun
    by_cases hik : i = k
    · subst hik
      rw [hlast.row] at hk
      cases hk
      refine ⟨i, p, hif, Table.get_set_self .., hterm hlast.terminal, hstart ▸ hlast.started,
        hseal hlast.requested, ?_⟩
      intro j q hj hq
      rw [Table.get_set] at hj
      split at hj
      · cases hj
        exact Nat.le_refl _
      · rw [hpos]
        exact hlast.last hj hq
    · refine ⟨i, f, hif, ?_, hlast.terminal, hlast.started, hlast.requested, ?_⟩
      · rw [Table.get_set, if_neg hik]
        exact hlast.row
      · intro j q hj hq
        rw [Table.get_set] at hj
        split at hj
        · cases hj
          rw [hpos]
          exact hlast.last hk (hstart ▸ hq)
        · exact hlast.last hj hq

theorem mapRows (hi : l.Inv) {g : Nat → Run → Run}
    (hsame : ∀ j q, l.runs.get j = some q → Run.Same q (g j q) ∧
      ((g j q).readyAt = true → q.readyAt = true ∨ ∀ i p, l.runs.get i = some p →
        p.mailboxPosition < q.mailboxPosition → isTerminalRunState p.state = true)) :
    Inv { l with runs := l.runs.mapRows g } where
  rows := by
    constructor
    · intro k r hk
      obtain ⟨q, hq, rfl⟩ := Option.map_eq_some_iff.mp hk
      rw [(hsame k q hq).1.position]
      exact hi.rows.bounded hq
    · intro k j r q hk hj heq
      obtain ⟨p, hp, rfl⟩ := Option.map_eq_some_iff.mp hk
      obtain ⟨q, hq, rfl⟩ := Option.map_eq_some_iff.mp hj
      rw [(hsame k p hp).1.position, (hsame j q hq).1.position] at heq
      exact hi.rows.distinct hp hq heq
    · intro k j r q hk hf hj hlt
      obtain ⟨p, hp, rfl⟩ := Option.map_eq_some_iff.mp hk
      obtain ⟨q, hq, rfl⟩ := Option.map_eq_some_iff.mp hj
      obtain ⟨hsp, hready⟩ := hsame k p hp
      obtain ⟨hsq, -⟩ := hsame j q hq
      rw [hsp.position, hsq.position] at hlt
      rw [hsq.state]
      obtain hf | hf := hf
      · rw [hsp.started] at hf
        exact hi.rows.ordered hp (.inl hf) hq hlt
      · obtain hr | hall := hready hf
        · exact hi.rows.ordered hp (.inr hr) hq hlt
        · exact hall j q hq hlt
    · intro k r hk
      obtain ⟨q, hq, rfl⟩ := Option.map_eq_some_iff.mp hk
      exact (hsame k q hq).1.sound (hi.rows.sound hq)
  active {k r} hk ha := by
    obtain ⟨q, hq, rfl⟩ := Option.map_eq_some_iff.mp hk
    rw [(hsame k q hq).1.state] at ha
    exact hi.active hq ha
  failing hf := by
    obtain ⟨k, f, hkf, hlast⟩ := hi.failing hf
    obtain ⟨hsf, -⟩ := hsame k f hlast.row
    refine ⟨k, g k f, hkf, ?_, ?_, ?_, ?_, ?_⟩
    · rw [Table.get_mapRows, hlast.row, Option.map_some]
    · rw [hsf.state]
      exact hlast.terminal
    · rw [hsf.started]
      exact hlast.started
    · rw [hsf.requested]
      exact hlast.requested
    · intro j q hj hq
      obtain ⟨p, hp, rfl⟩ := Option.map_eq_some_iff.mp hj
      obtain ⟨hsp, -⟩ := hsame j p hp
      rw [hsp.started] at hq
      rw [hsp.position, hsf.position]
      exact hlast.last hp hq

end Inv

end Lane

section Readiness

variable {l : Lane}

theorem same_mapRows_begun {l : Lane} {g : Nat → Run → Run} {s : SessionState}
    (hsame : ∀ j q, l.runs.get j = some q → Run.Same q (g j q)) :
    Lane.Stopped { l with state := s, runs := l.runs.mapRows g } ↔ l.Stopped := by
  constructor
  · rintro ⟨k, f, hk, hf, hexit, hseal, hlater⟩
    obtain ⟨p, hp, rfl⟩ := Option.map_eq_some_iff.mp hf
    have hs := hsame k p hp
    refine ⟨k, p, hk, hp, hs.exited ▸ hexit, hs.sealed ▸ hseal, ?_⟩
    intro j q hj hlt
    have hq := hsame j q hj
    have hget : (l.runs.mapRows g).get j = some (g j q) := by
      rw [Table.get_mapRows, hj, Option.map_some]
    rw [← hq.begun]
    apply hlater j _ hget
    rw [hs.position, hq.position]
    exact hlt
  · rintro ⟨k, f, hk, hf, hexit, hseal, hlater⟩
    have hs := hsame k f hf
    have hget : (l.runs.mapRows g).get k = some (g k f) := by
      rw [Table.get_mapRows, hf, Option.map_some]
    refine ⟨k, g k f, hk, hget, hs.exited.trans hexit, hs.sealed.trans hseal, ?_⟩
    intro j q hj hlt
    obtain ⟨p, hp, rfl⟩ := Option.map_eq_some_iff.mp hj
    have hq := hsame j p hp
    rw [hs.position, hq.position] at hlt
    rw [hq.begun]
    exact hlater j p hp hlt

theorem dependencies_terminal {mailbox : Nat} (h : l.laneDependenciesReady mailbox = true) {k : Nat}
    {r : Run} (hk : l.runs.get k = some r) (hlt : r.mailboxPosition < mailbox) :
    isTerminalRunState r.state = true := by
  simp only [Lane.laneDependenciesReady, Bool.and_eq_true, List.all_eq_true] at h
  have := h.1.2 r (Table.mem_rows.mpr ⟨k, hk⟩)
  simp only [hlt, decide_true, Bool.not_true, Bool.false_or, Bool.and_eq_true] at this
  exact this.1

theorem advance_same {q : Run} :
    Run.Same q (if q.state = .queued && !q.readyAt && l.laneDependenciesReady q.mailboxPosition then
      { q with readyAt := true } else q) := by
  split
  · exact ⟨rfl, rfl, rfl, rfl, rfl, rfl, rfl⟩
  · exact .refl q

theorem Lane.Inv.advance (hi : l.Inv) : l.advanceLaneReadiness.Inv := by
  refine hi.mapRows fun j q hj => ⟨advance_same, ?_⟩
  intro hr
  split at hr
  · rename_i hc
    simp only [Bool.and_eq_true] at hc
    exact .inr fun i p hp hlt => dependencies_terminal hc.2 hp hlt
  · exact .inl hr

theorem stopped_advance : l.advanceLaneReadiness.Stopped ↔ l.Stopped :=
  same_mapRows_begun fun _ _ _ => advance_same

end Readiness

end Quarantine
end Runtime
end PiCloud
