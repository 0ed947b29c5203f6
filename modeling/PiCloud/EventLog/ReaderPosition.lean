import PiCloud.EventLog.PartitionReader
import PiCloud.Runtime.SafeRetention

/-!
# EventLog.ReaderPosition

What the position that a reader reports is worth.

* `Covered`: below the client's next record everything was settled since the start, or is in hand.
* `Reads`: a reader's position, start and recovery plan against what was settled and projected.
* `Projected`: the checkpoint only passes records that were projected.
-/

namespace PiCloud
namespace EventLog

open Lib
open PiCloud.Runtime (FactRecord KafkaPartitionBounds Rows loadFactReplayOffset
  loadFactReplayOffset_le)

/-! ## The invariant -/

/-- Record `o` is with the handler of the current assignment, or was taken by the poll. -/
def Reader.Holds (r : Reader) (o : Nat) : Prop :=
  (∃ t ∈ r.active, r.current t = true ∧ t.record = o) ∨ ∃ p ∈ r.poll, p.record = some o

def Reader.Fresh (r : Reader) : Prop := ∀ p ∈ r.poll, p.generation = r.generation

structure Covered (log : Slots) (settled : List Nat) (r : Reader) : Prop where
  start : r.start = some r.begun
  reached : r.Fresh → ∀ o, (log o).isRecord → r.begun ≤ o → o < r.client.next →
    o ∈ settled ∨ r.Holds o
  ended : r.Fresh → ∀ p ∈ r.poll, ∀ e ∈ p.ended, ∀ o, (log o).isRecord → r.begun ≤ o → o < e →
    o ∈ settled ∨ r.Holds o
  taken : r.Fresh → ∀ p ∈ r.poll, ∀ o ∈ p.record, o < r.client.next
  eof : ∀ e ∈ r.eof, e.epoch = r.epoch → ∀ o, (log o).isRecord → r.begun ≤ o → o < e.offset →
    o ∈ settled ∨ ∃ t ∈ r.active, r.current t = true ∧ t.record = o
  /-- a poll that spans the assignment took nothing that was delivered -/
  spans : ¬ r.Fresh → r.eof = none ∧ ∀ t ∈ r.active, t.generation ≠ r.generation
  seeking : r.client.seeking.isSome → r.Fresh → ∀ p ∈ r.poll, p.record = none ∧ p.ended = none
  /-- the client is paused while a record is in hand -/
  busy : ∀ t ∈ r.active, r.current t = true → r.client.paused = true ∧
    t.record < r.client.next ∧ ∀ p ∈ r.poll, p.record = none ∧ p.ended = none
  done : ∀ t ∈ r.active, r.current t = true → t.stage = .tail → t.record ∈ settled

def Reader.Live (r : Reader) : Prop := r.retired = false ∧ r.ready = true ∧ r.blocked = false

structure Reads (log : Slots) (low : Nat) (settled projected : List Nat) (r : Reader) : Prop where
  live : r.Live → Covered log settled r
  ready : r.assigned = true → r.retired = false → r.ready = true
  assigned : r.ready = true → r.assigned = true ∧ r.processed.isSome
  idle : r.assigned = false → r.eof = none ∧ r.client.assigned = false ∧
    (∀ t ∈ r.active, t.generation ≠ r.generation) ∧
      ∀ p ∈ r.poll, p.generation = r.generation → p.record = none ∧ p.ended = none
  poll_le : ∀ p ∈ r.poll, p.generation ≤ r.generation
  active_le : ∀ t ∈ r.active, t.generation ≤ r.generation ∧ t.epoch ≤ r.epoch
  /-- what lies below a record whose handler runs was projected -/
  handling : ∀ t ∈ r.active, t.stage = .handling →
    (t.generation = r.generation → r.blocked = false) ∧
      ∀ o, (log o).isRecord → low ≤ o → o < t.record → o ∈ projected
  /-- the reported position -/
  reported : ∀ p ∈ r.processed, ∀ o, (log o).isRecord → o < p → o < r.begun ∨ o ∈ settled
  begun : ∀ o, (log o).isRecord → low ≤ o → o < r.begun → o ∈ projected
  plan : ∀ plan ∈ r.plan, plan.bound.low = low ∧ ∀ start, plan.offset = .ok start →
    ∀ o, (log o).isRecord → low ≤ o → o < start → o ∈ projected

structure SafeReading (log : Slots) (low : Nat) (s : ReadingGroup) : Prop where
  checkpoint : ∀ c ∈ s.db.checkpoint, ∀ o, (log o).isRecord → low ≤ o → o < c → o ∈ s.projected
  settled : ∀ o ∈ s.settled, o ∈ s.projected
  readers : ∀ i, Reads log low s.settled s.projected (s.readers i)

section Reads

variable {log : Slots} {low : Nat} {settled projected : List Nat} {r : Reader}

theorem Covered.mono {settled' : List Nat} (h : Covered log settled r)
    (hs : ∀ o ∈ settled, o ∈ settled') : Covered log settled' r :=
  { h with
    reached := fun hf o ho hb hlt => (h.reached hf o ho hb hlt).imp_left (hs o)
    ended := fun hf p hp e he o ho hb hlt => (h.ended hf p hp e he o ho hb hlt).imp_left (hs o)
    eof := fun e he hep o ho hb hlt => (h.eof e he hep o ho hb hlt).imp_left (hs o)
    done := fun t ht hc hst => hs _ (h.done t ht hc hst) }

theorem Reads.mono {settled' projected' : List Nat} (h : Reads log low settled projected r)
    (hs : ∀ o ∈ settled, o ∈ settled') (hp : ∀ o ∈ projected, o ∈ projected') :
    Reads log low settled' projected' r :=
  { h with
    live := fun hl => (h.live hl).mono hs
    handling := fun t ht hst =>
      have ⟨hb, hle⟩ := h.handling t ht hst
      ⟨hb, fun o ho hlo hlt => hp o (hle o ho hlo hlt)⟩
    reported := fun p hpr o ho hlt => (h.reported p hpr o ho hlt).imp_right (hs o)
    begun := fun o ho hlo hlt => hp o (h.begun o ho hlo hlt)
    plan := fun plan hpl =>
      have ⟨hlow, hok⟩ := h.plan plan hpl
      ⟨hlow, fun start hst o ho hlo hlt => hp o (hok start hst o ho hlo hlt)⟩ }

theorem Covered.fresh (h : Covered log settled r) {t : Task} (ht : t ∈ r.active)
    (hc : r.current t = true) : r.Fresh := by
  by_contra hn
  simp only [Reader.current, Bool.and_eq_true, beq_iff_eq] at hc
  exact (h.spans hn).2 t ht hc.1

theorem Covered.below_active (h : Covered log settled r) {t : Task} (ht : t ∈ r.active)
    (hc : r.current t = true) :
    ∀ o, (log o).isRecord → r.begun ≤ o → o < t.record → o ∈ settled := by
  intro o ho hb hlt
  obtain ⟨_, hnext, hpoll⟩ := h.busy t ht hc
  cases h.reached (h.fresh ht hc) o ho hb (by omega) with
  | inl hs => exact hs
  | inr hh =>
    cases hh with
    | inl hh =>
      obtain ⟨t', ht', _, heq⟩ := hh
      cases ht.symm.trans ht'
      omega
    | inr hh =>
      obtain ⟨p, hp, hrec⟩ := hh
      rw [(hpoll p hp).1] at hrec
      cases hrec

/-! ## Rebalance and recovery -/

theorem reads_empty : Reads log low settled projected {} where
  live h := nomatch h.2.1
  ready := nofun
  assigned := nofun
  idle _ := ⟨rfl, rfl, nofun, nofun⟩
  poll_le := nofun
  active_le := nofun
  handling := nofun
  reported := nofun
  begun _ _ _ h := absurd h (Nat.not_lt_zero _)
  plan := nofun

theorem Reads.rebalance (h : Reads log low settled projected r) :
    Reads log low settled projected r.rebalance where
  live h := nomatch h.2.1
  ready := nofun
  assigned := nofun
  idle _ := by
    refine ⟨rfl, rfl, fun t ht hg => ?_, fun p hp hg => ?_⟩
    · have := (h.active_le t ht).1
      rw [hg] at this
      exact absurd this (Nat.not_succ_le_self _)
    · have := h.poll_le p hp
      rw [hg] at this
      exact absurd this (Nat.not_succ_le_self _)
  poll_le p hp := Nat.le_succ_of_le (h.poll_le p hp)
  active_le t ht := ⟨Nat.le_succ_of_le (h.active_le t ht).1, (h.active_le t ht).2⟩
  handling t ht hst := by
    refine ⟨fun hg => ?_, (h.handling t ht hst).2⟩
    have := (h.active_le t ht).1
    rw [hg] at this
    exact absurd this (Nat.not_succ_le_self _)
  reported := h.reported
  begun := h.begun
  plan := h.plan

theorem Reads.recover (h : Reads log low settled projected r) (plan : Plan)
    (hlow : plan.bound.low = low) (hok : ∀ start, plan.offset = .ok start →
      ∀ o, (log o).isRecord → low ≤ o → o < start → o ∈ projected) :
    Reads log low settled projected { r with plan := some plan } :=
  { h with
    live := fun hl => { h.live hl with }
    plan := fun plan' hp => by
      cases hp
      exact ⟨hlow, hok⟩ }

theorem Reads.install (h : Reads log low settled projected r) {plan : Plan}
    (hp : r.plan = some plan) (ha : r.assigned = false) :
    Reads log low settled projected (r.install plan) := by
  obtain ⟨hlow, hok⟩ := h.plan plan hp
  obtain ⟨heof, _, hact, hpoll⟩ := h.idle ha
  unfold Reader.install
  split
  · rename_i start hst
    exact
      { live := fun _ =>
          { start := rfl
            reached := fun _ o _ hb hlt => absurd hlt (Nat.not_lt.mpr hb)
            ended := fun hf p hp e he => by
              rw [(hpoll p hp (hf p hp)).2] at he
              cases he
            taken := fun hf p hp o ho => by
              rw [(hpoll p hp (hf p hp)).1] at ho
              cases ho
            eof := fun e he => by
              rw [show r.eof = none from heof] at he
              cases he
            spans := fun _ => ⟨heof, hact⟩
            seeking := nofun
            busy := fun t ht hc => by
              simp only [Reader.current, Bool.and_eq_true, beq_iff_eq] at hc
              exact absurd hc.1 (hact t ht)
            done := fun t ht hc => by
              simp only [Reader.current, Bool.and_eq_true, beq_iff_eq] at hc
              exact absurd hc.1 (hact t ht) }
        ready := fun _ _ => rfl
        assigned := fun _ => ⟨rfl, rfl⟩
        idle := nofun
        poll_le := h.poll_le
        active_le := h.active_le
        handling := fun t ht hs =>
          ⟨fun hg => absurd hg (hact t ht), (h.handling t ht hs).2⟩
        reported := fun p hpr o _ hlt => by
          cases hpr
          exact .inl hlt
        begun := hok start hst
        plan := nofun }
  · exact
      { live := fun hl => nomatch hl.2.2
        ready := fun _ _ => rfl
        assigned := fun _ => ⟨rfl, rfl⟩
        idle := nofun
        poll_le := h.poll_le
        active_le := h.active_le
        handling := fun t ht hs =>
          ⟨fun hg => absurd hg (hact t ht), (h.handling t ht hs).2⟩
        reported := fun p hpr o _ hlt => by
          cases hpr
          exact .inl hlt
        begun := fun o _ hlo hlt => by
          have hlt' : o < plan.bound.low := hlt
          omega
        plan := nofun }

/-! ## Polls -/

theorem Reads.startPoll (h : Reads log low settled projected r) (hn : r.poll = none) :
    Reads log low settled projected { r with poll := some { generation := r.generation } } := by
  have hfresh : r.Fresh := by
    intro p hp
    rw [hn] at hp
    cases hp
  have hholds : ∀ o, r.Holds o →
      Reader.Holds { r with poll := some { generation := r.generation } } o := by
    intro o ho
    cases ho with
    | inl ho => exact .inl ho
    | inr ho =>
      obtain ⟨p, hp, _⟩ := ho
      rw [hn] at hp
      cases hp
  exact
    { h with
      live := fun hl =>
        have hc := h.live hl
        { hc with
          reached := fun _ o ho hb hlt => (hc.reached hfresh o ho hb hlt).imp_right (hholds o)
          ended := fun _ p hp e he => by
            cases hp
            cases he
          taken := fun _ p hp o ho => by
            cases hp
            cases ho
          spans := fun hnf => absurd (fun p hp => by cases hp; rfl) hnf
          seeking := fun _ _ p hp => by
            cases hp
            exact ⟨rfl, rfl⟩
          busy := fun t ht hct =>
            ⟨(hc.busy t ht hct).1, (hc.busy t ht hct).2.1, fun p hp => by
              cases hp
              exact ⟨rfl, rfl⟩⟩ }
      idle := fun ha =>
        have ⟨h₁, h₂, h₃, _⟩ := h.idle ha
        ⟨h₁, h₂, h₃, fun p hp _ => by
          cases hp
          exact ⟨rfl, rfl⟩⟩
      poll_le := fun p hp => by
        cases hp
        exact Nat.le_refl _ }

theorem Client.of_reaches {c : Client} {high offset : Nat}
    (h : c.reaches log high offset = true) : c.assigned = true ∧ c.paused = false ∧
      c.seeking = none ∧ c.position ≤ offset ∧
        ∀ o, (log o).isRecord → c.position ≤ o → offset ≤ o := by
  simp only [Client.reaches, Bool.and_eq_true, Bool.not_eq_true', Option.isNone_iff_eq_none,
    decide_eq_true_eq] at h
  obtain ⟨⟨⟨⟨ha, hp⟩, hs⟩, hle, _⟩, hgap⟩ := h
  refine ⟨ha, hp, hs, hle, fun o ho hpo => ?_⟩
  by_contra hlt
  rw [hgap o (by omega) hpo] at ho
  cases ho

theorem Covered.no_current (h : Covered log settled r) (hp : r.client.paused = false) :
    ∀ t ∈ r.active, r.current t = false := by
  intro t ht
  cases hc : r.current t with
  | false => rfl
  | true =>
    have := (h.busy t ht hc).1
    rw [hp] at this
    cases this

/-- The client moves on to `offset`, past it where a record is taken there. -/
theorem Reads.fetch (h : Reads log low settled projected r) {p : Poll}
    (hpoll : r.poll = some p) (p' : Poll) {high offset position : Nat}
    (hreach : r.client.reaches log high offset = true) (hgen : p'.generation = p.generation)
    (hkeep : ∀ o ∈ p.record, o ∈ p'.record)
    (hrec : ∀ o ∈ p'.record, o ∈ p.record ∨ o = offset ∧ position = offset + 1)
    (hend : ∀ e ∈ p'.ended, e ∈ p.ended ∨ e = offset)
    (hpos : position = offset ∨ position = offset + 1 ∧ p'.record = some offset) :
    Reads log low settled projected
      { r with poll := some p', client := { r.client with position } } := by
  obtain ⟨hasg, hpaused, hseek, hle, hgap⟩ := Client.of_reaches hreach
  have hnext : r.client.next = r.client.position := by simp [Client.next, hseek]
  have hnext' : Client.next { r.client with position } = position := by simp [Client.next, hseek]
  let r' : Reader := { r with poll := some p', client := { r.client with position } }
  have hfresh : r'.Fresh → r.Fresh := by
    intro hf q hq
    cases hpoll.symm.trans hq
    exact hgen.symm.trans (hf p' rfl)
  have hholds : ∀ o, r.Holds o → r'.Holds o := by
    intro o ho
    cases ho with
    | inl ho => exact .inl ho
    | inr ho =>
      obtain ⟨q, hq, hqr⟩ := ho
      cases hpoll.symm.trans hq
      exact .inr ⟨p', rfl, hkeep o hqr⟩
  -- what lies between the old position and the new one holds no other record
  have hbelow : Covered log settled r → r.Fresh → ∀ o, (log o).isRecord → r.begun ≤ o →
      o < offset → o ∈ settled ∨ r.Holds o := by
    intro hc hf o ho hb hlt
    refine hc.reached hf o ho hb (hnext ▸ ?_)
    by_contra hpo
    have := hgap o ho (by omega)
    omega
  exact
    { h with
      live := fun hl =>
        have hc := h.live hl
        { hc with
          reached := fun hf o ho hb hlt => by
            rw [hnext'] at hlt
            by_cases ho' : o < offset
            · exact (hbelow hc (hfresh hf) o ho hb ho').imp_right (hholds o)
            · cases hpos with
              | inl hpos => omega
              | inr hpos =>
                have heq : offset = o := by omega
                exact .inr (.inr ⟨p', rfl, heq ▸ hpos.2⟩)
          ended := fun hf q hq e he o ho hb hlt => by
            cases hq
            cases hend e he with
            | inl he => exact (hc.ended (hfresh hf) p hpoll e he o ho hb hlt).imp_right (hholds o)
            | inr he => exact (hbelow hc (hfresh hf) o ho hb (he ▸ hlt)).imp_right (hholds o)
          taken := fun hf q hq o ho => by
            cases hq
            rw [hnext']
            cases hrec o ho with
            | inl ho =>
              have := hc.taken (hfresh hf) p hpoll o ho
              omega
            | inr ho => omega
          spans := fun hnf => hc.spans (fun hf => hnf (fun q hq => by
            cases hq
            exact hgen.trans (hf p hpoll)))
          seeking := fun hs => by
            rw [show r.client.seeking = none from hseek] at hs
            cases hs
          busy := fun t ht hct => by
            have := hc.no_current hpaused t ht
            rw [show r.current t = true from hct] at this
            cases this }
      idle := fun ha => by
        have := (h.idle ha).2.1
        rw [hasg] at this
        cases this
      poll_le := fun q hq => by
        cases hq
        exact hgen ▸ h.poll_le p hpoll }

theorem Reads.retire (h : Reads log low settled projected r) :
    Reads log low settled projected r.retire :=
  { h with
    live := fun hl => nomatch hl.1
    ready := nofun
    assigned := nofun }

theorem Reads.noEof (h : Reads log low settled projected r) :
    Reads log low settled projected { r with eof := none } :=
  { h with
    live := fun hl =>
      have hc := h.live hl
      { hc with
        eof := nofun
        spans := fun hnf => ⟨rfl, (hc.spans hnf).2⟩ }
    idle := fun ha => ⟨rfl, (h.idle ha).2⟩ }

theorem Reads.position (h : Reads log low settled projected r) {p : Nat}
    (hp : ∀ o, (log o).isRecord → r.begun ≤ o → o < p → o ∈ settled) :
    Reads log low settled projected { r with processed := some p } :=
  { h with
    live := fun hl => { h.live hl with }
    assigned := fun hr => ⟨(h.assigned hr).1, rfl⟩
    reported := fun q hq o ho hlt => by
      cases hq
      by_cases hb : o < r.begun
      · exact .inl hb
      · exact .inr (hp o ho (by omega) hlt) }

theorem Reads.onPosition (h : Reads log low settled projected r) {e : Nat}
    (hp : r.Live → ∀ o, (log o).isRecord → r.begun ≤ o → o < e → o ∈ settled) :
    Reads log low settled projected (r.onPosition e) := by
  unfold Reader.onPosition
  split
  · exact h
  · rename_i hguard
    simp only [Bool.or_eq_true, Bool.not_eq_true', not_or, Bool.not_eq_true,
      Bool.not_eq_false] at hguard
    split
    · exact h.position (hp ⟨hguard.1.1.1, hguard.1.1.2, hguard.1.2⟩)
    · exact h

theorem Reads.advance (h : Reads log low settled projected r) :
    Reads log low settled projected r.advance := by
  unfold Reader.advance
  split
  · exact h
  · rename_i hguard
    simp only [Bool.or_eq_true, not_or, Option.not_isSome_iff_eq_none] at hguard
    split
    · rename_i e he
      split
      · rename_i hep
        refine (h.onPosition (fun hl o ho hb hlt => ?_)).noEof
        cases (h.live hl).eof e he hep o ho hb hlt with
        | inl hs => exact hs
        | inr hh =>
          obtain ⟨t, ht, _⟩ := hh
          rw [hguard.1.2] at ht
          cases ht
      · exact h
    · exact h

theorem observe_eq (r : Reader) (p : Poll) :
    ∃ x, r.observe p = { r with eof := x } ∧ (x = r.eof ∨
      p.generation = r.generation ∧ r.assigned = true ∧
        ∃ e, p.ended = some e ∧ x = some ⟨e, r.epoch⟩) := by
  unfold Reader.observe
  split
  · rename_i e he
    split
    · rename_i hg
      exact ⟨_, rfl, .inr ⟨hg.1, hg.2, e, he, rfl⟩⟩
    · exact ⟨r.eof, rfl, .inl rfl⟩
  · exact ⟨r.eof, rfl, .inl rfl⟩

theorem Covered.observed (h : Covered log settled r) {p : Poll} (hpoll : r.poll = some p)
    (hf : r.Fresh) {x : Option Eof} (hx : x = r.eof ∨
      p.generation = r.generation ∧ r.assigned = true ∧
        ∃ e, p.ended = some e ∧ x = some ⟨e, r.epoch⟩) :
    ∀ e ∈ x, e.epoch = r.epoch → ∀ o, (log o).isRecord → r.begun ≤ o → o < e.offset →
      o ∈ settled ∨ r.Holds o := by
  intro e he hep o ho hb hlt
  cases hx with
  | inl hx =>
    exact (h.eof e (hx ▸ he) hep o ho hb hlt).imp_right .inl
  | inr hx =>
    obtain ⟨_, _, e', he', rfl⟩ := hx
    cases he
    exact h.ended hf p hpoll e' he' o ho hb hlt

theorem Reads.endPoll_none (h : Reads log low settled projected r) {p : Poll}
    (hpoll : r.poll = some p) (hg : p.generation = r.generation) (hrec : p.record = none) :
    Reads log low settled projected { r.observe p with poll := none } := by
  obtain ⟨x, hx, hor⟩ := observe_eq r p
  have hfresh : r.Fresh := by
    intro q hq
    cases hpoll.symm.trans hq
    exact hg
  have hholds : ∀ o, r.Holds o → ∃ t ∈ r.active, r.current t = true ∧ t.record = o := by
    intro o ho
    cases ho with
    | inl ho => exact ho
    | inr ho =>
      obtain ⟨q, hq, hqr⟩ := ho
      cases hpoll.symm.trans hq
      rw [hrec] at hqr
      cases hqr
  rw [hx]
  exact
    { h with
      live := fun hl =>
        have hc := h.live hl
        { hc with
          reached := fun _ o ho hb hlt =>
            (hc.reached hfresh o ho hb hlt).imp_right (fun hh => .inl (hholds o hh))
          ended := fun _ => nofun
          taken := fun _ => nofun
          eof := fun e he hep o ho hb hlt =>
            (hc.observed hpoll hfresh hor e he hep o ho hb hlt).imp_right (hholds o)
          spans := fun hnf => absurd nofun hnf
          seeking := fun _ _ => nofun
          busy := fun t ht hct => ⟨(hc.busy t ht hct).1, (hc.busy t ht hct).2.1, nofun⟩ }
      idle := fun ha => by
        refine ⟨?_, (h.idle ha).2.1, (h.idle ha).2.2.1, nofun⟩
        cases hor with
        | inl hor => exact hor.trans (h.idle ha).1
        | inr hor =>
          have ha' : r.assigned = false := ha
          rw [hor.2.1] at ha'
          cases ha'
      poll_le := nofun }

theorem Reads.endPoll_some (h : Reads log low settled projected r) {p : Poll}
    (hpoll : r.poll = some p) (hg : p.generation = r.generation) {record : Nat}
    (hrec : p.record = some record) :
    Reads log low settled projected
      (Reader.deliver { r.observe p with poll := none } record) := by
  obtain ⟨x, hx, hor⟩ := observe_eq r p
  have hfresh : r.Fresh := by
    intro q hq
    cases hpoll.symm.trans hq
    exact hg
  have ha : r.assigned = true := by
    cases ha : r.assigned with
    | true => rfl
    | false =>
      rw [((h.idle ha).2.2.2 p hpoll hg).1] at hrec
      cases hrec
  rw [hx]
  unfold Reader.deliver
  rw [if_pos ha]
  split
  · exact
      { h with
        live := fun hl => nomatch hl.1
        ready := nofun
        assigned := nofun
        idle := fun hn => by
          have hn' : r.assigned = false := hn
          rw [ha] at hn'
          cases hn'
        poll_le := nofun }
  · rename_i hact
    simp only [Option.not_isSome_iff_eq_none] at hact
    let t : Task := { record, generation := r.generation, epoch := r.epoch }
    have hcur : ∀ r' : Reader, r'.generation = r.generation → r'.epoch = r.epoch →
        r'.current t = true := by
      intro r' h₁ h₂
      simp [Reader.current, t, h₁, h₂]
    have hholds : ∀ o, r.Holds o → o = record := by
      intro o ho
      cases ho with
      | inl ho =>
        obtain ⟨t', ht', _⟩ := ho
        rw [hact] at ht'
        cases ht'
      | inr ho =>
        obtain ⟨q, hq, hqr⟩ := ho
        cases hpoll.symm.trans hq
        rw [hrec] at hqr
        exact (Option.some.inj hqr).symm
    exact
      { h with
        live := fun hl =>
          have hc := h.live hl
          { start := hc.start
            reached := fun _ o ho hb hlt =>
              (hc.reached hfresh o ho hb hlt).imp_right
                (fun hh => .inl ⟨t, rfl, hcur _ rfl rfl, (hholds o hh).symm⟩)
            ended := fun _ => nofun
            taken := fun _ => nofun
            eof := fun e he hep o ho hb hlt =>
              (hc.observed hpoll hfresh hor e he hep o ho hb hlt).imp_right
                (fun hh => ⟨t, rfl, hcur _ rfl rfl, (hholds o hh).symm⟩)
            spans := fun hnf => absurd nofun hnf
            seeking := fun _ _ => nofun
            busy := fun t' ht' _ => by
              cases ht'
              exact ⟨rfl, hc.taken hfresh p hpoll record hrec, nofun⟩
            done := fun t' ht' _ hst => by
              cases ht'
              cases hst }
        idle := fun hn => by
          have hn' : r.assigned = false := hn
          rw [ha] at hn'
          cases hn'
        poll_le := nofun
        active_le := fun t' ht' => by
          cases ht'
          exact ⟨Nat.le_refl _, Nat.le_refl _⟩
        handling := fun t' ht' hst => by
          cases ht'
          cases hst }

theorem observe_of_ne {p : Poll} (hne : p.generation ≠ r.generation) : r.observe p = r := by
  unfold Reader.observe
  split
  · rw [if_neg (fun h => hne h.1)]
  · rfl

theorem Reads.endPoll (h : Reads log low settled projected r) {p : Poll}
    (hpoll : r.poll = some p) : Reads log low settled projected (r.endPoll p) := by
  have hgen : (r.observe p).generation = r.generation := by
    obtain ⟨x, hx, _⟩ := observe_eq r p
    rw [hx]
  unfold Reader.endPoll
  by_cases hg : p.generation = r.generation
  · dsimp only
    rw [if_pos (hg.trans hgen.symm)]
    split
    · rename_i record hrec
      exact (h.endPoll_some hpoll hg hrec).advance
    · rename_i hrec
      exact (h.endPoll_none hpoll hg hrec).advance
  · have hne := hg
    dsimp only
    rw [if_neg (fun he => hne (he.trans hgen))]
    rw [observe_of_ne hne]
    have hnf : ¬ r.Fresh := fun hf => hne (hf p hpoll)
    split
    · rename_i start hst
      exact
        { h with
          live := fun hl =>
            have hc := h.live hl
            { start := hc.start
              reached := fun _ o _ hb hlt => by
                have hst' : r.start = some start := hst
                rw [hc.start] at hst'
                cases hst'
                exact absurd hlt (Nat.not_lt.mpr hb)
              ended := fun _ => nofun
              taken := fun _ => nofun
              eof := nofun
              spans := fun hn => absurd nofun hn
              seeking := fun _ _ => nofun
              busy := fun t ht hct => by
                simp only [Reader.current, Bool.and_eq_true, beq_iff_eq] at hct
                exact absurd hct.1 ((hc.spans hnf).2 t ht)
              done := fun t ht hct => by
                simp only [Reader.current, Bool.and_eq_true, beq_iff_eq] at hct
                exact absurd hct.1 ((hc.spans hnf).2 t ht) }
          idle := fun ha => ⟨rfl, (h.idle ha).2.1, (h.idle ha).2.2.1, nofun⟩
          poll_le := nofun
          active_le := fun t ht => ⟨(h.active_le t ht).1, Nat.le_succ_of_le (h.active_le t ht).2⟩ }
    · rename_i hst
      exact
        { h with
          live := fun hl => by
            have hst' : r.start = none := hst
            rw [(h.live hl).start] at hst'
            cases hst'
          idle := fun ha => ⟨(h.idle ha).1, (h.idle ha).2.1, (h.idle ha).2.2.1, nofun⟩
          poll_le := nofun }

/-! ## The record in hand -/

theorem Reads.setStage (h : Reads log low settled projected r) {t : Task}
    (ht : r.active = some t) {stage : TaskStage}
    (hh : stage = .handling → (t.generation = r.generation → r.blocked = false) ∧
      ∀ o, (log o).isRecord → low ≤ o → o < t.record → o ∈ projected)
    (hd : stage = .tail → r.Live → r.current t = true → t.record ∈ settled) :
    Reads log low settled projected (r.setStage t stage) := by
  have hholds : ∀ o, (∃ t' ∈ r.active, r.current t' = true ∧ t'.record = o) →
      ∃ t' ∈ (r.setStage t stage).active, (r.setStage t stage).current t' = true ∧
        t'.record = o := by
    rintro o ⟨t', ht', hc, hrec⟩
    cases ht.symm.trans ht'
    exact ⟨_, rfl, hc, hrec⟩
  have hholds' : ∀ o, r.Holds o → (r.setStage t stage).Holds o := fun o ho =>
    ho.imp (hholds o) id
  exact
    { h with
      live := fun hl =>
        have hc := h.live hl
        { hc with
          reached := fun hf o ho hb hlt => (hc.reached hf o ho hb hlt).imp_right (hholds' o)
          ended := fun hf p hp e he o ho hb hlt =>
            (hc.ended hf p hp e he o ho hb hlt).imp_right (hholds' o)
          eof := fun e he hep o ho hb hlt => (hc.eof e he hep o ho hb hlt).imp_right (hholds o)
          spans := fun hnf => ⟨(hc.spans hnf).1, fun t' ht' => by
            cases ht'
            exact (hc.spans hnf).2 t ht⟩
          busy := fun t' ht' hct => by
            cases ht'
            exact hc.busy t ht hct
          done := fun t' ht' hct hst => by
            cases ht'
            exact hd hst hl hct }
      idle := fun ha =>
        have ⟨h₁, h₂, h₃, h₄⟩ := h.idle ha
        ⟨h₁, h₂, fun t' ht' => by
          cases ht'
          exact h₃ t ht, h₄⟩
      active_le := fun t' ht' => by
        cases ht'
        exact h.active_le t ht
      handling := fun t' ht' hst => by
        cases ht'
        exact hh hst }

theorem Reads.pause (h : Reads log low settled projected r) :
    Reads log low settled projected r.pause :=
  { h with
    live := fun hl =>
      have hc := h.live hl
      { hc with busy := fun t ht hct => ⟨rfl, (hc.busy t ht hct).2⟩ } }

theorem Reads.seek (h : Reads log low settled projected r) {offset : Nat}
    (hs : r.Live → (∀ o, (log o).isRecord → r.begun ≤ o → o < offset → o ∈ settled) ∧
      ∀ p ∈ r.poll, p.record = none ∧ p.ended = none) :
    Reads log low settled projected (r.seek offset) := by
  have hold : ∀ t ∈ r.active, (r.seek offset).current t = false := by
    intro t ht
    have := (h.active_le t ht).2
    simp only [Reader.current, Reader.seek, Bool.and_eq_false_iff, beq_eq_false_iff_ne]
    exact .inr (by omega)
  exact
    { h with
      live := fun hl =>
        have hc := h.live hl
        have ⟨hbelow, hpoll⟩ := hs hl
        { start := hc.start
          reached := fun _ o ho hb hlt => .inl (hbelow o ho hb hlt)
          ended := fun _ p hp e he => by
            rw [(hpoll p hp).2] at he
            cases he
          taken := fun _ p hp o ho => by
            rw [(hpoll p hp).1] at ho
            cases ho
          eof := nofun
          spans := fun hnf => ⟨rfl, (hc.spans hnf).2⟩
          seeking := fun _ _ => hpoll
          busy := fun t ht hct => by
            rw [hold t ht] at hct
            cases hct
          done := fun t ht hct => by
            rw [hold t ht] at hct
            cases hct }
      idle := fun ha => ⟨rfl, (h.idle ha).2⟩
      active_le := fun t ht => ⟨(h.active_le t ht).1, Nat.le_succ_of_le (h.active_le t ht).2⟩ }

theorem Reads.below_active (h : Reads log low settled projected r)
    (hsub : ∀ o ∈ settled, o ∈ projected) (hl : r.Live) {t : Task} (ht : t ∈ r.active)
    (hc : r.current t = true) :
    ∀ o, (log o).isRecord → low ≤ o → o < t.record → o ∈ projected := by
  intro o ho hlo hlt
  by_cases hb : o < r.begun
  · exact h.begun o ho hlo hb
  · exact hsub o ((h.live hl).below_active ht hc o ho (by omega) hlt)

theorem Reads.begin (h : Reads log low settled projected r)
    (hsub : ∀ o ∈ settled, o ∈ projected) {t : Task} (ht : r.active = some t) :
    Reads log low settled projected (r.begin t) := by
  unfold Reader.begin
  split
  · rename_i hguard
    refine h.setStage ht nofun (fun _ hl hc => ?_)
    simp only [hl.1, hl.2.1, hc, Bool.not_true, Bool.or_self, Bool.false_eq_true] at hguard
  · rename_i hguard
    simp only [Bool.or_eq_true, Bool.not_eq_true', not_or, Bool.not_eq_true,
      Bool.not_eq_false] at hguard
    split
    · rename_i hb
      refine (h.pause.seek (fun hl => ?_)).setStage ht nofun (fun _ hl => ?_)
      · have hb' : r.blocked = false := hl.2.2
        rw [hb] at hb'
        cases hb'
      · have hb' : r.blocked = false := hl.2.2
        rw [hb] at hb'
        cases hb'
    · rename_i hb
      have hl : r.Live := ⟨hguard.1.1, hguard.2, by simpa using hb⟩
      exact h.setStage ht (fun _ => ⟨fun _ => hl.2.2, h.below_active hsub hl ht hguard.1.2⟩) nofun

theorem Reads.live_of_handling (h : Reads log low settled projected r) {t : Task}
    (ht : r.active = some t) (hst : t.stage = .handling) (hret : r.retired = false)
    (hc : r.current t = true) : r.Live := by
  simp only [Reader.current, Bool.and_eq_true, beq_iff_eq] at hc
  have ha : r.assigned = true := by
    cases ha : r.assigned with
    | true => rfl
    | false => exact absurd hc.1 ((h.idle ha).2.2.1 t ht)
  exact ⟨hret, h.ready ha hret, (h.handling t ht hst).1 hc.1⟩

theorem Reads.settle_ok (h : Reads log low settled projected r) {t : Task}
    (ht : r.active = some t) (hst : t.stage = .handling) (hret : r.retired = false)
    (hc : r.current t = true) :
    Reads log low (t.record :: settled) (t.record :: projected) (r.settle t true) := by
  have hl := h.live_of_handling ht hst hret hc
  have hbelow := (h.live hl).below_active ht hc
  have h₁ := h.mono (fun o => List.mem_cons_of_mem t.record)
    (fun o => List.mem_cons_of_mem t.record)
  have h₂ : Reads log low (t.record :: settled) (t.record :: projected) (r.setStage t .tail) :=
    h₁.setStage ht nofun (fun _ _ _ => List.mem_cons_self)
  have h₃ := h₂.position (p := t.record + 1) (fun o ho hb hlt => by
    by_cases heq : o = t.record
    · exact heq ▸ List.mem_cons_self
    · exact List.mem_cons_of_mem _ (hbelow o ho hb (by omega)))
  unfold Reader.settle
  simp only [hret, hc, Bool.not_true, Bool.or_self, Bool.false_eq_true, if_false, if_true]
  exact { h₃ with live := fun hl => { h₃.live hl with } }

theorem Reads.settle (h : Reads log low settled projected r) {t : Task}
    (ht : r.active = some t) (hst : t.stage = .handling) {ok : Bool}
    (hnot : ¬ (ok = true ∧ r.retired = false ∧ r.current t = true)) :
    Reads log low settled projected (r.settle t ok) := by
  unfold Reader.settle
  split
  · rename_i hguard
    refine h.setStage ht nofun (fun _ hl hc => ?_)
    simp only [hl.1, hc, Bool.not_true, Bool.or_self, Bool.false_eq_true] at hguard
  · rename_i hguard
    simp only [Bool.or_eq_true, Bool.not_eq_true', not_or, Bool.not_eq_true,
      Bool.not_eq_false] at hguard
    split
    · rename_i hok
      exact absurd ⟨hok, hguard⟩ hnot
    · have hl := h.live_of_handling ht hst hguard.1 hguard.2
      have hcov := h.live hl
      -- the record is handed out again, and with it the ones after it
      have h₁ : Reads log low settled projected (r.pause.seek t.record) :=
        h.pause.seek (fun _ =>
          ⟨hcov.below_active ht hguard.2, (hcov.busy t ht hguard.2).2.2⟩)
      have h₂ : Reads log low settled projected
          ((r.pause.seek t.record).setStage t .tail) := h₁.setStage ht nofun (fun _ _ hc => by
        have := (h.active_le t ht).2
        simp only [Reader.current, Reader.seek, Reader.pause, Bool.and_eq_true, beq_iff_eq] at hc
        omega)
      exact { h₂ with live := fun hl => { h₂.live hl with } }

theorem Reads.unpause (h : Reads log low settled projected r) (hact : r.active = none) :
    Reads log low settled projected { r with client := { r.client with paused := false } } :=
  { h with
    live := fun hl =>
      have hc := h.live hl
      { hc with
        busy := fun t ht => by
          rw [show r.active = none from hact] at ht
          cases ht } }

theorem Reads.leave (h : Reads log low settled projected r) {t : Task} (ht : r.active = some t)
    (hst : t.stage = .tail) : Reads log low settled projected { r with active := none } := by
  have hdone : Covered log settled r → ∀ o,
      (∃ t' ∈ r.active, r.current t' = true ∧ t'.record = o) → o ∈ settled := by
    rintro hc o ⟨t', ht', hct, rfl⟩
    cases ht.symm.trans ht'
    exact hc.done t ht hct hst
  have hholds : Covered log settled r → ∀ o, r.Holds o →
      o ∈ settled ∨ Reader.Holds { r with active := none } o := fun hc o ho =>
    ho.imp (hdone hc o) .inr
  exact
    { h with
      live := fun hl =>
        have hc : Covered log settled r := h.live hl
        { hc with
          reached := fun hf o ho hb hlt =>
            (hc.reached hf o ho hb hlt).elim .inl (hholds hc o)
          ended := fun hf p hp e he o ho hb hlt =>
            (hc.ended hf p hp e he o ho hb hlt).elim .inl (hholds hc o)
          eof := fun e he hep o ho hb hlt =>
            .inl ((hc.eof e he hep o ho hb hlt).elim id (hdone hc o))
          spans := fun hnf => ⟨(hc.spans hnf).1, nofun⟩
          busy := nofun
          done := nofun }
      idle := fun ha => ⟨(h.idle ha).1, (h.idle ha).2.1, nofun, (h.idle ha).2.2.2⟩
      active_le := nofun
      handling := nofun }

theorem advance_active (r : Reader) : r.advance.active = r.active := by
  have hpos : ∀ e, (r.onPosition e).active = r.active := by
    intro e
    unfold Reader.onPosition
    split
    · rfl
    · split <;> rfl
  unfold Reader.advance
  split
  · rfl
  · split
    · split
      · exact hpos _
      · rfl
    · rfl

theorem Reads.finish (h : Reads log low settled projected r) {t : Task}
    (ht : r.active = some t) (hst : t.stage = .tail) :
    Reads log low settled projected (r.finish t) := by
  have hleave := h.leave ht hst
  unfold Reader.finish
  dsimp only
  split
  · split
    · exact hleave.advance
    · exact hleave.advance.unpause (advance_active _)
  · exact hleave

theorem Reads.resume (h : Reads log low settled projected r) :
    Reads log low settled projected r.resume := by
  have h₁ : Reads log low settled projected { r with timer := false, paused := false } :=
    { h with live := fun hl => { h.live hl with } }
  unfold Reader.resume
  dsimp only
  split
  · exact h₁
  · rename_i hact
    exact h₁.unpause (by simpa using hact)

theorem Reads.sought (h : Reads log low settled projected r) {offset : Nat}
    (hs : r.client.seeking = some offset) :
    Reads log low settled projected
      { r with client := { r.client with position := offset, seeking := none } } := by
  have hnext : Client.next { r.client with position := offset, seeking := none } =
      r.client.next := by simp [Client.next, hs]
  exact
    { h with
      live := fun hl =>
        have hc := h.live hl
        { hc with
          reached := fun hf o ho hb hlt => hc.reached hf o ho hb (hnext ▸ hlt)
          taken := fun hf p hp o ho => hnext ▸ hc.taken hf p hp o ho
          seeking := nofun
          busy := fun t ht hct => by
            rw [hnext]
            exact hc.busy t ht hct } }

theorem Reads.restart (h : Reads log low settled projected r) :
    Reads log low settled projected { processed := r.processed, begun := r.begun } :=
  { (reads_empty : Reads log low settled projected {}) with
    live := fun hl => nomatch hl.2.1
    assigned := nofun
    reported := h.reported
    begun := h.begun }

theorem Reads.capture (h : Reads log low settled projected r) (hn : r.processed = none) :
    Reads log low settled projected { r with processed := some low, begun := low } :=
  have hready : r.ready = false := by
    cases hr : r.ready with
    | false => rfl
    | true =>
      have := (h.assigned hr).2
      rw [hn] at this
      cases this
  { h with
    live := fun hl => by
      have hl' : r.ready = true := hl.2.1
      rw [hready] at hl'
      cases hl'
    assigned := fun hr => by
      have hr' : r.ready = true := hr
      rw [hready] at hr'
      cases hr'
    reported := fun p hp o _ hlt => by
      cases hp
      exact .inl hlt
    begun := fun o _ hlo hlt => absurd hlt (Nat.not_lt.mpr hlo) }

end Reads

/-! ## The group -/

section Group

variable {log : Slots} {low : Nat} {s t : ReadingGroup}

theorem SafeReading.setReader (h : SafeReading log low s) {i : Nat} {r : Reader}
    (hr : Reads log low s.settled s.projected r) : SafeReading log low (s.setReader i r) :=
  { h with
    readers := fun j => by
      unfold ReadingGroup.setReader
      dsimp only
      rw [Function.update_apply]
      split
      · exact hr
      · exact h.readers j }

theorem startOffset_le {db : Rows} {bound : KafkaPartitionBounds} {saved : Option Nat}
    {start : Nat} (h : startOffset db bound saved = .ok start) :
    ∃ floor, loadFactReplayOffset db bound = .ok floor ∧ start ≤ floor := by
  unfold startOffset at h
  split at h
  · cases h
  · cases h
  · rename_i floor delivery hf hd
    refine ⟨floor, hf, ?_⟩
    cases h
    split <;> omega

theorem SafeReading.start_le (h : SafeReading log low s) {bound : KafkaPartitionBounds} {saved : Option Nat}
    {start : Nat} (hlow : bound.low = low) (hst : startOffset s.db bound saved = .ok start) :
    ∀ o, (log o).isRecord → low ≤ o → o < start → o ∈ s.projected := by
  intro o ho hlo hlt
  obtain ⟨floor, hf, hle⟩ := startOffset_le hst
  have hcheck := loadFactReplayOffset_le hf
  cases hc : s.db.checkpoint with
  | none =>
    rw [hc] at hcheck
    simp only [Option.getD_none] at hcheck
    omega
  | some c =>
    rw [hc] at hcheck
    simp only [Option.getD_some] at hcheck
    exact h.checkpoint c hc o ho hlo (by omega)

theorem SafeReading.project (h : SafeReading log low s) {i : Nat} {t : Task} {fact : FactRecord}
    {known : Bool} {db : Rows} (ht : (s.readers i).active = some t) (hst : t.stage = .handling)
    (hdb : s.db.projectFact fact t.record known = .ok db) :
    SafeReading log low { s with db, projected := t.record :: s.projected } where
  checkpoint c hc o ho hlo hlt := by
    cases (PiCloud.Runtime.Rows.moves_projectFact hdb).reached c hc with
    | inl hnew =>
      obtain ⟨at_, hat, hle⟩ := hnew
      cases hat
      by_cases heq : o = t.record
      · exact heq ▸ List.mem_cons_self
      · exact List.mem_cons_of_mem _
          (((h.readers i).handling t ht hst).2 o ho hlo (by omega))
    | inr hold => exact List.mem_cons_of_mem _ (h.checkpoint c hold o ho hlo hlt)
  settled o ho := List.mem_cons_of_mem _ (h.settled o ho)
  readers j := (h.readers j).mono (fun _ => id) (fun o => List.mem_cons_of_mem _)

theorem SafeReading.settled_ok (h : SafeReading log low s) {i : Nat} {t : Task}
    (ht : (s.readers i).active = some t) (hst : t.stage = .handling)
    (hret : (s.readers i).retired = false) (hc : (s.readers i).current t = true) :
    SafeReading log low { s.setReader i ((s.readers i).settle t true) with
      settled := t.record :: s.settled
      projected := t.record :: s.projected } where
  checkpoint c hcp o ho hlo hlt := List.mem_cons_of_mem _ (h.checkpoint c hcp o ho hlo hlt)
  settled o ho := by
    cases List.mem_cons.mp ho with
    | inl heq => exact heq ▸ List.mem_cons_self
    | inr ho => exact List.mem_cons_of_mem _ (h.settled o ho)
  readers j := by
    unfold ReadingGroup.setReader
    dsimp only
    rw [Function.update_apply]
    split
    · exact (h.readers i).settle_ok ht hst hret hc
    · exact (h.readers j).mono (fun o => List.mem_cons_of_mem _)
        (fun o => List.mem_cons_of_mem _)

theorem safeReading_step {a : ReadTurn} (h : SafeReading log low s) (hs : s.act log low a = some t) :
    SafeReading log low t := by
  cases a with
  | append high =>
    obtain ⟨-, rfl⟩ := ite_some hs
    exact { h with }
  | database db =>
    obtain ⟨hc, rfl⟩ := ite_some hs
    exact { h with checkpoint := fun c hcp => h.checkpoint c (hc ▸ hcp) }
  | rebalance i =>
    cases hs
    exact h.setReader (h.readers i).rebalance
  | recover i bound saved =>
    obtain ⟨hg, rfl⟩ := ite_some hs
    exact h.setReader ((h.readers i).recover _ hg.2.2.2.1
      (fun start hst => h.start_le hg.2.2.2.1 hst))
  | install i =>
    simp only [ReadingGroup.act] at hs
    split at hs
    · rename_i plan hplan
      obtain ⟨hg, rfl⟩ := ite_some hs
      exact h.setReader ((h.readers i).install hplan hg.2.1)
    · cases hs
  | startPoll i =>
    simp only [ReadingGroup.act] at hs
    split at hs
    · cases hs
    · rename_i hn
      cases hs
      exact h.setReader ((h.readers i).startPoll hn)
  | fetchRecord i offset =>
    simp only [ReadingGroup.act] at hs
    split at hs
    · rename_i p hp
      obtain ⟨hg, rfl⟩ := ite_some hs
      have hn := Option.isNone_iff_eq_none.mp hg.1
      refine h.setReader ((h.readers i).fetch hp { p with record := some offset } hg.2.1 rfl
        (fun o ho => ?_) (fun o ho => ?_) (fun e he => .inl he) (.inr ⟨rfl, rfl⟩))
      · rw [hn] at ho
        cases ho
      · cases ho
        exact .inr ⟨rfl, rfl⟩
    · cases hs
  | fetchEnd i offset =>
    simp only [ReadingGroup.act] at hs
    split at hs
    · rename_i p hp
      obtain ⟨hg, rfl⟩ := ite_some hs
      refine h.setReader ((h.readers i).fetch hp { p with ended := some offset } hg rfl
        (fun o ho => ho) (fun o ho => .inl ho) (fun e he => ?_) (.inl rfl))
      cases he
      exact .inr rfl
    · cases hs
  | endPoll i =>
    simp only [ReadingGroup.act] at hs
    split at hs
    · rename_i p hp
      cases hs
      exact h.setReader ((h.readers i).endPoll hp)
    · cases hs
  | begin i =>
    simp only [ReadingGroup.act] at hs
    split at hs
    · rename_i t ht
      obtain ⟨-, rfl⟩ := ite_some hs
      exact h.setReader ((h.readers i).begin h.settled ht)
    · cases hs
  | project i known =>
    simp only [ReadingGroup.act] at hs
    split at hs
    · rename_i t ht
      split at hs
      · split at hs
        · rename_i hst
          split at hs
          · rename_i db hdb
            cases hs
            exact h.project ht hst hdb
          · cases hs
        · cases hs
      · cases hs
    · cases hs
  | settle i ok =>
    simp only [ReadingGroup.act] at hs
    split at hs
    · rename_i t ht
      split at hs
      · rename_i hst
        split at hs
        · rename_i hg
          cases hs
          obtain ⟨rfl, hret, hc⟩ := hg
          exact h.settled_ok ht hst hret hc
        · rename_i hg
          cases hs
          exact h.setReader ((h.readers i).settle ht hst hg)
      · cases hs
    · cases hs
  | finish i =>
    simp only [ReadingGroup.act] at hs
    split at hs
    · rename_i t ht
      obtain ⟨hst, rfl⟩ := ite_some hs
      exact h.setReader ((h.readers i).finish ht hst)
    · cases hs
  | resume i =>
    obtain ⟨-, rfl⟩ := ite_some hs
    exact h.setReader (h.readers i).resume
  | sought i =>
    simp only [ReadingGroup.act] at hs
    split at hs
    · rename_i offset hoff
      cases hs
      exact h.setReader ((h.readers i).sought hoff)
    · cases hs
  | retire i =>
    cases hs
    exact h.setReader (h.readers i).retire
  | restart i =>
    obtain ⟨-, rfl⟩ := ite_some hs
    exact h.setReader (h.readers i).restart
  | crash i =>
    cases hs
    exact h.setReader reads_empty
  | capture i =>
    obtain ⟨hn, rfl⟩ := ite_some hs
    exact h.setReader ((h.readers i).capture (Option.isNone_iff_eq_none.mp hn))

theorem reach_safeReading {turns : List ReadTurn} (h : Reach (readingGroup log low) turns s) :
    SafeReading log low s := by
  refine h.invariant (SafeReading log low) (fun s hs => ?_) (fun s a t hi hst => safeReading_step hi hst)
  obtain ⟨hcheck, hread, hsettled, _⟩ := hs
  exact
    { checkpoint := fun c hc o _ hlo hlt => by
        have := hcheck c hc
        omega
      settled := fun o ho => by
        rw [hsettled] at ho
        cases ho
      readers := fun i => hread i ▸ reads_empty }

theorem loadFactReplayOffset_le_required {db : Rows} {bound : KafkaPartitionBounds} {floor n : Nat}
    (h : loadFactReplayOffset db bound = .ok floor) (hn : n ∈ db.required) : floor ≤ n := by
  unfold loadFactReplayOffset at h
  dsimp only at h
  split at h
  · cases h
  · cases h
    cases hp : db.pending with
    | none =>
      rw [show db.required = [] from List.min?_eq_none_iff.mp hp] at hn
      cases hn
    | some m =>
      have := PiCloud.Runtime.Rows.pending_le hp hn
      simp only [Option.getD_some]
      omega

end Group

end EventLog
end PiCloud
