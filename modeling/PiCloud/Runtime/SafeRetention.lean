import Mathlib.Data.List.MinMax
import PiCloud.Runtime.FactRecovery

/-!
# Runtime.SafeRetention

The retention sweep beside the projectors of a partition, in any order of turns.

* `Stream.act`: claims, appends, projections, anchors, recoveries, crashes and sweeps.
* `AtLeast`: a position that the recovery floor has passed, which no turn undoes.
* `Spent`: a commit that was projected once protects nothing new when it is projected again.
* `passed_spent`: no commit is passed or deleted before.
-/

namespace PiCloud
namespace Runtime

open Lib

/-! ## The stream -/

/-- One member's reading of the partition. -/
structure Projector where
  position : Nat
  /-- a display event was found open and its anchor is about to be written -/
  anchoring : Bool := false

structure Stream where
  db : Rows := {}
  log : List FactRecord := []
  /-- everything below was deleted -/
  low : Nat := 0
  projectors : Nat → Option Projector := fun _ => none
  /-- the writers each Run was ever leased to -/
  granted : List (Nat × Nat) := []
  /-- sweeps that have read the ends and the ages -/
  captured : List (Nat × Option Nat) := []
  /-- the offsets that sweeps settled on, deleted already or later -/
  targets : List Nat := []

inductive StreamTurn where
  | create (run session : Nat)
  | claim (run writer piSession : Nat)
  | settle (run : Nat)
  | requestSeal (run factId : Nat)
  | failWriter (writer : Nat)
  | append (fact : FactRecord)
  /-- a member is assigned the partition; `delivery` is the group's position -/
  | assign (member : Nat) (bound : KafkaPartitionBounds) (delivery : Nat)
  /-- a display event has no transaction; `retry`: the handler failed after it -/
  | project (member : Nat) (known retry : Bool)
  | look (member : Nat) (known : Bool)
  | anchor (member : Nat)
  | crash (member : Nat)
  | capture (time : Option Nat)
  | readFloor (captured : Nat × Option Nat)
  | deleteRecords (offset : Nat)

namespace Stream

/-- The record a member is at. -/
def current (s : Stream) (member : Nat) : Option (Projector × FactRecord) :=
  match s.projectors member with
  | some p => (s.log[p.position]?).map (fun fact => (p, fact))
  | none => none

def setProjector (s : Stream) (member : Nat) (p : Option Projector) : Stream :=
  { s with projectors := Function.update s.projectors member p }

/-- What a turn does, or nothing where it cannot be taken. -/
def act (s : Stream) : StreamTurn → Option Stream
  | .create run session =>
    if (s.db.runs.get run).isSome then none
    else some { s with db := { s.db with runs := s.db.runs.set run { session } } }
  | .claim run writer piSession =>
    match s.db.runs.get run, s.db.leases.get writer with
    | some row, lease =>
      -- one writer serves every Run of its Session until it is sealed
      if row.lease.isSome || lease.any (fun l => l.sealOffset.isSome) then none
      else
        some { s with
          db := (s.db.openLease writer piSession).leaseRun run row writer
          granted := (run, writer) :: s.granted }
    | none, _ => none
  | .settle run =>
    some { s with db := { s.db with
      runs := s.db.runs.modify run (fun row => { row with terminal := true }) } }
  | .requestSeal run factId =>
    some { s with db := { s.db with
      runs := s.db.runs.modify run (fun row => { row with sealId := some factId }) } }
  | .failWriter writer =>
    some { s with db := { s.db with
      leases := s.db.leases.modify writer (fun row => { row with failed := true }) } }
  | .append fact =>
    -- publication is admitted for a writer the Run was leased to, in the writer's native Session
    if fact.scope.all (fun scope => (scope.run, scope.writer) ∈ s.granted ∧
        (s.db.leases.get scope.writer).any (fun l => l.piSession = scope.piSession)) then
      some { s with log := s.log ++ [fact] }
    else none
  | .assign member bound delivery =>
    if bound.low ≤ s.low ∧ bound.high ≤ s.log.length then
      match loadFactReplayOffset s.db bound with
      | .ok start => some (s.setProjector member (some { position := min start delivery }))
      | .error _ => none
    else none
  | .project member known retry =>
    match s.current member with
    | some (p, fact) =>
      match s.db.projectFact fact p.position known with
      | .ok db =>
        some ({ s with db }.setProjector member
          (some { position := if retry then p.position else p.position + 1 }))
      | .error _ => none
    | none => none
  | .look member known =>
    match s.current member with
    | some (p, .agentEvent scope) =>
      match (if known then .ok true else s.db.isOpen scope p.position) with
      | .ok true => some (s.setProjector member (some { p with anchoring := true }))
      | _ => none
    | _ => none
  | .anchor member =>
    match s.current member with
    | some (p, .agentEvent scope) =>
      if p.anchoring then
        some ({ s with db := s.db.anchorRun scope.run p.position }.setProjector member
          (some { position := p.position + 1 }))
      else none
    | _ => none
  | .crash member => some (s.setProjector member none)
  | .capture time => some { s with captured := (s.log.length, time) :: s.captured }
  | .readFloor captured =>
    if captured ∈ s.captured then
      match sweepOffset s.db.retentionFloor captured.1 captured.2 with
      | some offset => some { s with targets := offset :: s.targets }
      | none => some s
    else none
  | .deleteRecords offset =>
    if offset ∈ s.targets then some { s with low := max s.low offset } else none

/-- A display anchor that is installed lies at or above the recovery floor. -/
def Guard (s : Stream) : StreamTurn → Prop
  | .anchor member =>
    match s.current member with
    | some (p, .agentEvent scope) =>
      (s.db.runs.get scope.run).any (fun run => run.firstOffset.isNone) →
        ∀ floor ∈ s.db.retentionFloor, floor ≤ p.position
    | _ => True
  | _ => True

end Stream

def stream : System Stream StreamTurn where
  init s := s = {}
  step s a t := s.act a = some t

/-! ## The recovery floor -/

namespace Rows

/-- The recovery floor is set and has reached `f`. -/
def AtLeast (db : Rows) (f : Nat) : Prop :=
  ∃ c, db.checkpoint = some c ∧ f ≤ c ∧ ∀ n ∈ db.required, f ≤ n

theorem mem_required {db : Rows} {n : Nat} :
    n ∈ db.required ↔
      (∃ r row, db.runs.get r = some row ∧ row.sealOffset = none ∧ row.firstOffset = some n) ∨
        ∃ k, db.current.get k = some (some n) := by
  unfold required
  rw [List.mem_append, List.mem_filterMap, List.mem_filterMap]
  refine or_congr ⟨?_, ?_⟩ ⟨?_, ?_⟩
  · rintro ⟨row, hrow, hn⟩
    obtain ⟨hmem, hopen⟩ := List.mem_filter.mp hrow
    obtain ⟨r, hr⟩ := Table.mem_rows.mp hmem
    exact ⟨r, row, hr, by simpa using hopen, hn⟩
  · rintro ⟨r, row, hr, hopen, hn⟩
    exact ⟨row, List.mem_filter.mpr ⟨Table.mem_rows.mpr ⟨r, hr⟩, by simp [hopen]⟩, hn⟩
  · rintro ⟨replay, hmem, hn⟩
    obtain ⟨k, hk⟩ := Table.mem_rows.mp hmem
    exact ⟨k, by rw [hk, ← hn]; rfl⟩
  · rintro ⟨k, hk⟩
    exact ⟨some n, Table.mem_rows.mpr ⟨k, hk⟩, rfl⟩

theorem pending_le {db : Rows} {m n : Nat} (hp : db.pending = some m) (hn : n ∈ db.required) :
    m ≤ n := by
  have := List.min?_eq_some_iff.mp hp
  exact this.2 n hn

theorem retentionFloor_atLeast {db : Rows} {f : Nat} (h : db.retentionFloor = some f) :
    db.AtLeast f := by
  unfold retentionFloor at h
  cases hc : db.checkpoint with
  | none => simp [hc] at h
  | some c =>
    simp only [hc, Option.some.injEq] at h
    refine ⟨c, hc, ?_, fun n hn => ?_⟩
    · cases hp : db.pending with
      | none => simp [hp] at h; omega
      | some m => simp [hp] at h; omega
    · cases hp : db.pending with
      | none => simp [List.min?_eq_none_iff.mp hp] at hn
      | some m =>
        have := pending_le hp hn
        simp [hp] at h
        omega

theorem AtLeast.floor {db : Rows} {f : Nat} (h : db.AtLeast f) :
    ∃ g, db.retentionFloor = some g ∧ f ≤ g := by
  obtain ⟨c, hc, hle, hreq⟩ := h
  unfold retentionFloor
  rw [hc]
  refine ⟨_, rfl, ?_⟩
  cases hp : db.pending with
  | none => exact hle
  | some m =>
    have := hreq m (List.min?_eq_some_iff.mp hp).1
    simp only [Option.map_some, Option.getD_some]
    omega

theorem AtLeast.mono {db : Rows} {f g : Nat} (h : db.AtLeast g) (hle : f ≤ g) : db.AtLeast f := by
  obtain ⟨c, hc, hgc, hreq⟩ := h
  exact ⟨c, hc, by omega, fun n hn => Nat.le_trans hle (hreq n hn)⟩

end Rows

theorem sweepOffset_le {floor : Option Nat} {end_ : Nat} {time : Option Nat} {offset : Nat}
    (h : sweepOffset floor end_ time = some offset) : ∃ f, floor = some f ∧ offset ≤ f := by
  unfold sweepOffset at h
  split at h
  · cases h
  · rename_i f
    dsimp only at h
    split at h
    · cases h
      exact ⟨f, rfl, by omega⟩
    · cases h

theorem loadFactReplayOffset_ok {db : Rows} {bound : KafkaPartitionBounds}
    (hlow : bound.low = 0 ∨ db.AtLeast bound.low) (hb : bound.low ≤ bound.high) :
    ∃ start, loadFactReplayOffset db bound = .ok start ∧
      ∀ f, db.AtLeast f → f ≤ bound.high → f ≤ start := by
  have hpend : bound.low ≤ db.pending.getD bound.high := by
    cases hp : db.pending with
    | none => exact hb
    | some m =>
      cases hlow with
      | inl h0 => simp [h0]
      | inr h =>
        obtain ⟨c, _, _, hreq⟩ := h
        exact hreq m (List.min?_eq_some_iff.mp hp).1
  unfold loadFactReplayOffset
  dsimp only
  rw [if_neg (by omega)]
  refine ⟨_, rfl, fun f hf hfh => ?_⟩
  obtain ⟨c, hc, hfc, hreq⟩ := hf
  have hfp : f ≤ db.pending.getD bound.high := by
    cases hp : db.pending with
    | none => exact hfh
    | some m => exact hreq m (List.min?_eq_some_iff.mp hp).1
  rw [hc, Option.getD_some]
  split <;> omega

theorem loadFactReplayOffset_le {db : Rows} {bound : KafkaPartitionBounds} {start : Nat}
    (h : loadFactReplayOffset db bound = .ok start) :
    start ≤ max bound.low (db.checkpoint.getD 0) := by
  unfold loadFactReplayOffset at h
  dsimp only at h
  split at h
  · cases h
  · cases h
    cases db.checkpoint with
    | none =>
      simp only [Option.getD_none]
      split <;> omega
    | some c =>
      simp only [Option.getD_some]
      split <;> omega

/-! ## What a transaction keeps -/

namespace Rows

def SealedAt (db : Rows) (writer k : Nat) : Prop :=
  ∃ row, db.leases.get writer = some row ∧ row.sealOffset = some k

def Held (db : Rows) (run writer : Nat) : Prop :=
  ∃ row, db.runs.get run = some row ∧ row.lease = some writer

def Begun (db : Rows) (run writer : Nat) : Prop :=
  ∃ row, db.runs.get run = some row ∧ row.lease = some writer ∧ row.firstOffset.isSome = true

def Dead (db : Rows) (run writer : Nat) : Prop :=
  (∃ row, db.runs.get run = some row ∧ row.lease ≠ some writer) ∧ ∃ k, db.SealedAt writer k

/-- What no turn takes back. -/
structure Later (db db' : Rows) : Prop where
  leases : ∀ w row, db.leases.get w = some row → ∃ row', db'.leases.get w = some row' ∧
    row'.piSession = row.piSession ∧
      ∀ k, row.sealOffset = some k → ∃ k' ≤ k, row'.sealOffset = some k'
  runs : ∀ r row, db.runs.get r = some row → ∃ row', db'.runs.get r = some row' ∧
    row'.session = row.session ∧ ∀ k, row.sealOffset = some k → row'.sealOffset = some k
  held : ∀ r w, db.Held r w → db'.Held r w ∨ db'.Dead r w
  begun : ∀ r w, db.Begun r w → db'.Begun r w ∨ db'.Dead r w
  dead : ∀ r w, db.Dead r w → db'.Dead r w
  commits : ∀ c ∈ db.commits, c ∈ db'.commits

theorem Later.refl (db : Rows) : Later db db where
  leases _ row h := ⟨row, h, rfl, fun k hk => ⟨k, Nat.le_refl k, hk⟩⟩
  runs _ row h := ⟨row, h, rfl, fun _ => id⟩
  held _ _ h := .inl h
  begun _ _ h := .inl h
  dead _ _ h := h
  commits _ h := h

theorem Later.trans {a b c : Rows} (h : Later a b) (h' : Later b c) : Later a c where
  leases w row hrow := by
    obtain ⟨row₁, h₁, hp₁, hs₁⟩ := h.leases w row hrow
    obtain ⟨row₂, h₂, hp₂, hs₂⟩ := h'.leases w row₁ h₁
    refine ⟨row₂, h₂, hp₂.trans hp₁, fun k hk => ?_⟩
    obtain ⟨k₁, hle₁, hk₁⟩ := hs₁ k hk
    obtain ⟨k₂, hle₂, hk₂⟩ := hs₂ k₁ hk₁
    exact ⟨k₂, Nat.le_trans hle₂ hle₁, hk₂⟩
  runs r row hrow := by
    obtain ⟨row₁, h₁, hp₁, hs₁⟩ := h.runs r row hrow
    obtain ⟨row₂, h₂, hp₂, hs₂⟩ := h'.runs r row₁ h₁
    exact ⟨row₂, h₂, hp₂.trans hp₁, fun k hk => hs₂ k (hs₁ k hk)⟩
  held r w hh := (h.held r w hh).elim (h'.held r w) (fun hd => .inr (h'.dead r w hd))
  begun r w hh := (h.begun r w hh).elim (h'.begun r w) (fun hd => .inr (h'.dead r w hd))
  dead r w hd := h'.dead r w (h.dead r w hd)
  commits c hc := h'.commits c (h.commits c hc)

theorem Later.sealedAt {db db' : Rows} (h : Later db db') {w k : Nat} (hs : db.SealedAt w k) :
    ∃ k' ≤ k, db'.SealedAt w k' := by
  obtain ⟨row, hrow, hk⟩ := hs
  obtain ⟨row', hrow', _, hkeep⟩ := h.leases w row hrow
  obtain ⟨k', hle, hk'⟩ := hkeep k hk
  exact ⟨k', hle, row', hrow', hk'⟩

/-- What a turn does that projects the record at `offset`, or none: nothing is sealed elsewhere,
and nothing new is protected but `anchor`. -/
structure Moves (db db' : Rows) (offset anchor : Option Nat) : Prop where
  later : Later db db'
  checkpoint : ∀ c, db.checkpoint = some c → ∃ c', db'.checkpoint = some c' ∧ c ≤ c'
  reached : ∀ c, db'.checkpoint = some c → (∃ o ∈ offset, c ≤ o + 1) ∨ db.checkpoint = some c
  required : ∀ n ∈ db'.required, n ∈ db.required ∨ n ∈ anchor
  leaseSeals : ∀ w k, db'.SealedAt w k → db.SealedAt w k ∨ k ∈ offset
  runSeals : ∀ r row k, db'.runs.get r = some row → row.sealOffset = some k →
    (∃ row₀, db.runs.get r = some row₀ ∧ row₀.sealOffset = some k) ∨ k ∈ offset

section Moves

variable {db db' : Rows} {offset anchor : Option Nat}

theorem Moves.refl (db : Rows) (offset anchor : Option Nat) : Moves db db offset anchor where
  later := .refl db
  checkpoint c hc := ⟨c, hc, Nat.le_refl c⟩
  reached _ hc := .inr hc
  required _ hn := .inl hn
  leaseSeals _ _ h := .inl h
  runSeals _ row _ h hk := .inl ⟨row, h, hk⟩

theorem Moves.trans {a b c : Rows} (h : Moves a b offset anchor) (h' : Moves b c offset anchor) :
    Moves a c offset anchor where
  later := h.later.trans h'.later
  checkpoint n hn := by
    obtain ⟨m, hm, hnm⟩ := h.checkpoint n hn
    obtain ⟨l, hl, hml⟩ := h'.checkpoint m hm
    exact ⟨l, hl, Nat.le_trans hnm hml⟩
  reached n hn := (h'.reached n hn).elim .inl (h.reached n)
  required n hn := (h'.required n hn).elim (h.required n) .inr
  leaseSeals w k hk := (h'.leaseSeals w k hk).elim (h.leaseSeals w k) .inr
  runSeals r row k hrow hk := by
    rcases h'.runSeals r row k hrow hk with ⟨row₁, hrow₁, hk₁⟩ | hk
    · exact h.runSeals r row₁ k hrow₁ hk₁
    · exact .inr hk

theorem sealedAt_congr (hl : db'.leases = db.leases) (w k : Nat) :
    db'.SealedAt w k ↔ db.SealedAt w k := by
  unfold SealedAt
  rw [hl]

theorem later_of_eq (hr : db'.runs = db.runs) (hl : db'.leases = db.leases)
    (hc : ∀ c ∈ db.commits, c ∈ db'.commits) : Later db db' where
  leases w row h := ⟨row, by rw [hl]; exact h, rfl, fun k hk => ⟨k, Nat.le_refl k, hk⟩⟩
  runs r row h := ⟨row, by rw [hr]; exact h, rfl, fun _ => id⟩
  held r w h := by
    left
    unfold Held
    rwa [hr]
  begun r w h := by
    left
    unfold Begun
    rwa [hr]
  dead r w := by
    intro ⟨hrow, k, hk⟩
    exact ⟨by rwa [hr], k, (sealedAt_congr hl w k).mpr hk⟩
  commits := hc

theorem moves_record (db : Rows) (offset : Nat) (anchor : Option Nat) :
    Moves db (db.recordFactProjection offset) (some offset) anchor where
  later := later_of_eq rfl rfl (fun _ => id)
  checkpoint c hc := by
    refine ⟨_, rfl, ?_⟩
    rw [hc, Option.getD_some]
    omega
  reached c hc := by
    have heq : max (db.checkpoint.getD 0) (offset + 1) = c := Option.some.inj hc
    cases hold : db.checkpoint with
    | none =>
      rw [hold, Option.getD_none] at heq
      exact .inl ⟨offset, rfl, by omega⟩
    | some m =>
      rw [hold, Option.getD_some] at heq
      by_cases hle : m ≤ offset + 1
      · exact .inl ⟨offset, rfl, by omega⟩
      · right
        congr 1
        omega
  required _ hn := .inl hn
  leaseSeals _ _ h := .inl h
  runSeals _ row _ h hk := .inl ⟨row, h, hk⟩

theorem moves_current (hr : db'.runs = db.runs) (hl : db'.leases = db.leases)
    (hp : db'.checkpoint = db.checkpoint) (hc : ∀ c ∈ db.commits, c ∈ db'.commits)
    (hcur : ∀ k n, db'.current.get k = some (some n) →
      db.current.get k = some (some n) ∨ n ∈ anchor) : Moves db db' offset anchor where
  later := later_of_eq hr hl hc
  checkpoint c h := ⟨c, hp.trans h, Nat.le_refl c⟩
  reached c h := .inr (hp.symm.trans h)
  required n hn := by
    rcases mem_required.mp hn with ⟨r, row, hrow, h⟩ | ⟨k, hk⟩
    · exact .inl (mem_required.mpr (.inl ⟨r, row, by rwa [hr] at hrow, h⟩))
    · rcases hcur k n hk with h | h
      · exact .inl (mem_required.mpr (.inr ⟨k, h⟩))
      · exact .inr h
  leaseSeals w k h := .inl ((sealedAt_congr hl w k).mp h)
  runSeals r row k hrow hk := .inl ⟨row, by rwa [hr] at hrow, hk⟩

theorem moves_lease {writer : Nat} {f : LeaseRow → LeaseRow}
    (hf : ∀ row, db.leases.get writer = some row → (f row).piSession = row.piSession ∧
      (∀ k, row.sealOffset = some k → ∃ k' ≤ k, (f row).sealOffset = some k') ∧
      ∀ k, (f row).sealOffset = some k → row.sealOffset = some k ∨ k ∈ offset) :
    Moves db { db with leases := db.leases.modify writer f } offset anchor := by
  have hlater : ∀ w row, db.leases.get w = some row →
      ∃ row', (db.leases.modify writer f).get w = some row' ∧ row'.piSession = row.piSession ∧
        ∀ k, row.sealOffset = some k → ∃ k' ≤ k, row'.sealOffset = some k' := by
    intro w row hrow
    rw [Table.get_modify]
    by_cases hw : w = writer
    · subst hw
      rw [if_pos rfl, hrow]
      exact ⟨f row, rfl, (hf row hrow).1, (hf row hrow).2.1⟩
    · rw [if_neg hw]
      exact ⟨row, hrow, rfl, fun k hk => ⟨k, Nat.le_refl k, hk⟩⟩
  refine ⟨⟨hlater, fun r row h => ⟨row, h, rfl, fun _ => id⟩, fun _ _ h => .inl h,
    fun _ _ h => .inl h, ?_, fun _ => id⟩, fun c h => ⟨c, h, Nat.le_refl c⟩, fun _ h => .inr h,
    fun _ h => .inl h, ?_, fun _ row _ h hk => .inl ⟨row, h, hk⟩⟩
  · intro r w ⟨hrow, k, row, hget, hk⟩
    obtain ⟨row', hrow', _, hkeep⟩ := hlater w row hget
    obtain ⟨k', _, hk'⟩ := hkeep k hk
    exact ⟨hrow, k', row', hrow', hk'⟩
  · intro w k ⟨row', hrow', hk⟩
    rw [Table.get_modify] at hrow'
    split at hrow'
    · rename_i hw
      obtain ⟨row, hrow, heq⟩ := Option.map_eq_some_iff.mp hrow'
      subst heq hw
      rcases (hf row hrow).2.2 k hk with h | h
      · exact .inl ⟨row, hrow, h⟩
      · exact .inr h
    · exact .inl ⟨row', hrow', hk⟩

theorem moves_run {r : Nat} {row row' : RunRow} (hrow : db.runs.get r = some row)
    (hget : ∀ j, db'.runs.get j = if j = r then some row' else db.runs.get j)
    (hl : db'.leases = db.leases) (hcur : db'.current = db.current)
    (hcom : db'.commits = db.commits) (hp : db'.checkpoint = db.checkpoint)
    (hsession : row'.session = row.session)
    (hseal : ∀ k, row.sealOffset = some k → row'.sealOffset = some k)
    (hnew : ∀ k, row'.sealOffset = some k → row.sealOffset = some k ∨ k ∈ offset)
    (hfirst : row'.sealOffset = none → ∀ n, row'.firstOffset = some n →
      row.sealOffset = none ∧ row.firstOffset = some n ∨ n ∈ anchor)
    (hlease : row'.lease = row.lease ∧
        (row.firstOffset.isSome = true → row'.firstOffset.isSome = true) ∨
      row'.lease = none ∧ (∀ w, row.lease = some w → ∃ k, db.SealedAt w k) ∨
      row.lease = none ∧ ∀ w, row'.lease = some w → ∀ k, ¬ db.SealedAt w k) :
    Moves db db' offset anchor := by
  have hother : ∀ j, j ≠ r → db'.runs.get j = db.runs.get j := fun j hj => by
    rw [hget, if_neg hj]
  have hself : db'.runs.get r = some row' := by rw [hget, if_pos rfl]
  -- a Run that loses its lease is dead to the writer it had
  have hheld : ∀ w, row.lease = some w → row'.lease = some w ∨ db'.Dead r w := by
    intro w hw
    rcases hlease with ⟨h, _⟩ | ⟨h, hs⟩ | ⟨h, _⟩
    · exact .inl (h.trans hw)
    · obtain ⟨k, hk⟩ := hs w hw
      exact .inr ⟨⟨row', hself, by rw [h]; nofun⟩, k, (sealedAt_congr hl w k).mpr hk⟩
    · rw [h] at hw
      cases hw
  refine ⟨⟨?_, ?_, ?_, ?_, ?_, ?_⟩, ?_, ?_, ?_, ?_, ?_⟩
  · intro w q h
    exact ⟨q, by rw [hl]; exact h, rfl, fun k hk => ⟨k, Nat.le_refl k, hk⟩⟩
  · intro j q hq
    by_cases hj : j = r
    · subst hj
      rw [hrow] at hq
      cases hq
      exact ⟨row', hself, hsession, hseal⟩
    · exact ⟨q, (hother j hj).trans hq, rfl, fun _ => id⟩
  · intro j w ⟨q, hq, hw⟩
    by_cases hj : j = r
    · subst hj
      rw [hrow] at hq
      cases hq
      rcases hheld w hw with h | h
      · exact .inl ⟨row', hself, h⟩
      · exact .inr h
    · exact .inl ⟨q, (hother j hj).trans hq, hw⟩
  · intro j w ⟨q, hq, hw, hb⟩
    by_cases hj : j = r
    · subst hj
      rw [hrow] at hq
      cases hq
      rcases hlease with ⟨hsame, hkeep⟩ | ⟨hnone, hs⟩ | ⟨hnone, _⟩
      · exact .inl ⟨row', hself, hsame.trans hw, hkeep hb⟩
      · obtain ⟨k, hk⟩ := hs w hw
        exact .inr ⟨⟨row', hself, by rw [hnone]; nofun⟩, k, (sealedAt_congr hl w k).mpr hk⟩
      · rw [hnone] at hw
        cases hw
    · exact .inl ⟨q, (hother j hj).trans hq, hw, hb⟩
  · intro j w ⟨⟨q, hq, hw⟩, k, hk⟩
    refine ⟨?_, k, (sealedAt_congr hl w k).mpr hk⟩
    by_cases hj : j = r
    · subst hj
      rw [hrow] at hq
      cases hq
      refine ⟨row', hself, fun hw' => ?_⟩
      rcases hlease with ⟨hsame, _⟩ | ⟨hnone, _⟩ | ⟨_, hfree⟩
      · exact hw (hsame.symm.trans hw')
      · rw [hnone] at hw'
        cases hw'
      · exact hfree w hw' k hk
    · exact ⟨q, (hother j hj).trans hq, hw⟩
  · intro c hc
    rwa [hcom]
  · exact fun c hc => ⟨c, hp.trans hc, Nat.le_refl c⟩
  · exact fun c hc => .inr (hp.symm.trans hc)
  · intro n hn
    rcases mem_required.mp hn with ⟨j, q, hq, hopen, hf⟩ | ⟨k, hk⟩
    · by_cases hj : j = r
      · subst hj
        rw [hself] at hq
        cases hq
        rcases hfirst hopen n hf with ⟨h1, h2⟩ | h
        · exact .inl (mem_required.mpr (.inl ⟨_, row, hrow, h1, h2⟩))
        · exact .inr h
      · exact .inl (mem_required.mpr (.inl ⟨j, q, (hother j hj).symm.trans hq, hopen, hf⟩))
    · exact .inl (mem_required.mpr (.inr ⟨k, by rwa [hcur] at hk⟩))
  · exact fun w k h => .inl ((sealedAt_congr hl w k).mp h)
  · intro j q k hq hk
    by_cases hj : j = r
    · subst hj
      rw [hself] at hq
      cases hq
      rcases hnew k hk with h | h
      · exact .inl ⟨row, hrow, h⟩
      · exact .inr h
    · exact .inl ⟨q, (hother j hj).symm.trans hq, hk⟩

theorem moves_newRun {r : Nat} (hnone : db.runs.get r = none) (row : RunRow)
    (hrow : row.sealOffset = none ∧ row.firstOffset = none) :
    Moves db { db with runs := db.runs.set r row } none none := by
  have hne : ∀ j q, db.runs.get j = some q → (db.runs.set r row).get j = some q := by
    intro j q hq
    rw [Table.get_set, if_neg (by rintro rfl; rw [hnone] at hq; cases hq)]
    exact hq
  refine ⟨⟨fun w q h => ⟨q, h, rfl, fun k hk => ⟨k, Nat.le_refl k, hk⟩⟩,
    fun j q h => ⟨q, hne j q h, rfl, fun _ => id⟩, fun j w ⟨q, hq, h⟩ => .inl ⟨q, hne j q hq, h⟩, fun j w ⟨q, hq, h⟩ => .inl ⟨q, hne j q hq, h⟩,
    fun j w ⟨⟨q, hq, h⟩, hs⟩ => ⟨⟨q, hne j q hq, h⟩, hs⟩, fun _ => id⟩,
    fun c h => ⟨c, h, Nat.le_refl c⟩, fun _ h => .inr h, ?_, fun _ _ h => .inl h, ?_⟩
  · intro n hn
    rcases mem_required.mp hn with ⟨j, q, hq, hopen, hf⟩ | h
    · rw [Table.get_set] at hq
      split at hq
      · cases hq
        rw [hrow.2] at hf
        cases hf
      · exact .inl (mem_required.mpr (.inl ⟨j, q, hq, hopen, hf⟩))
    · exact .inl (mem_required.mpr (.inr h))
  · intro j q k hq hk
    rw [Table.get_set] at hq
    split at hq
    · cases hq
      rw [hrow.1] at hk
      cases hk
    · exact .inl ⟨q, hq, hk⟩

theorem moves_newLease {w : Nat} (hnone : db.leases.get w = none) (piSession : Nat) :
    Moves db { db with leases := db.leases.set w { piSession } } none none := by
  have hne : ∀ j q, db.leases.get j = some q →
      (db.leases.set w { piSession }).get j = some q := by
    intro j q hq
    rw [Table.get_set, if_neg (by rintro rfl; rw [hnone] at hq; cases hq)]
    exact hq
  refine ⟨⟨fun j q h => ⟨q, hne j q h, rfl, fun k hk => ⟨k, Nat.le_refl k, hk⟩⟩,
    fun j q h => ⟨q, h, rfl, fun _ => id⟩,
    fun _ _ h => .inl h, fun _ _ h => .inl h, fun j v ⟨hr, k, q, hq, hk⟩ => ⟨hr, k, q, hne v q hq, hk⟩,
    fun _ => id⟩, fun c h => ⟨c, h, Nat.le_refl c⟩, fun _ h => .inr h, fun _ h => .inl h, ?_,
    fun _ q _ h hk => .inl ⟨q, h, hk⟩⟩
  intro j k ⟨q, hq, hk⟩
  rw [Table.get_set] at hq
  split at hq
  · cases hq
    cases hk
  · exact .inl ⟨q, hq, hk⟩

theorem moves_markRun (db : Rows) (r : Nat) (f : RunRow → RunRow)
    (hf : ∀ row, (f row).session = row.session ∧ (f row).lease = row.lease ∧
      (f row).sealOffset = row.sealOffset ∧ (f row).firstOffset = row.firstOffset) :
    Moves db { db with runs := db.runs.modify r f } none none := by
  cases hrow : db.runs.get r with
  | none =>
    have hsame : db.runs.modify r f = db.runs := by simp [Table.modify, hrow]
    rw [hsame]
    exact .refl db _ _
  | some row =>
    obtain ⟨hsession, hlease, hseal, hfirst⟩ := hf row
    refine moves_run hrow (Table.get_modify_of_get hrow f) rfl rfl rfl rfl hsession ?_ ?_ ?_
      (.inl ⟨hlease, ?_⟩)
    · exact fun k hk => hseal.trans hk
    · exact fun k hk => .inl (hseal.symm.trans hk)
    · exact fun hopen n hn => .inl ⟨hseal.symm.trans hopen, hfirst.symm.trans hn⟩
    · exact fun hsome => by rwa [hfirst]

/-! ### The transactions -/

theorem settles_current (piSession : Nat) (settles : List Nat)
    (t : Table (Nat × Nat) (Option Nat)) {k : Nat × Nat} {n : Nat}
    (h : (settles.foldl (fun t id => t.set (piSession, id) none) t).get k = some (some n)) :
    t.get k = some (some n) := by
  induction settles generalizing t with
  | nil => exact h
  | cons id settles ih =>
    have := ih _ h
    rw [Table.get_set] at this
    split at this
    · cases this
    · exact this

theorem pins_current (piSession at_ : Nat) (pins : List Nat)
    (t u : Table (Nat × Nat) (Option Nat)) (hok : pins.foldlM (pin piSession at_) t = .ok u)
    {k : Nat × Nat} {n : Nat} (h : u.get k = some (some n)) :
    t.get k = some (some n) ∨ n = at_ := by
  induction pins generalizing t with
  | nil =>
    cases hok
    exact .inl h
  | cons id pins ih =>
    rw [List.foldlM_cons] at hok
    cases hpin : pin piSession at_ t id with
    | error e =>
      rw [hpin] at hok
      cases hok
    | ok v =>
      rw [hpin] at hok
      rcases ih v hok with hv | hn
      · unfold pin at hpin
        split at hpin
        · cases hpin
        · cases hpin
          rw [Table.get_set] at hv
          split at hv
          · cases hv
            exact .inr rfl
          · exact .inl hv
        · split at hpin <;> cases hpin
          exact .inl hv
      · exact .inr hn

theorem moves_applyIn {piSession seq at_ : Nat} {pins settles : List Nat}
    (h : db.applyIn piSession seq pins settles at_ = .ok db') :
    Moves db db' (some at_) (some at_) := by
  unfold applyIn at h
  split at h
  · cases h
    exact .refl db _ _
  · split at h
    · cases h
    · dsimp only at h
      cases hpins : pins.foldlM (pin piSession at_)
          (db.checkpointRows piSession settles).current with
      | error e =>
        rw [hpins] at h
        cases h
      | ok current =>
        rw [hpins] at h
        cases h
        refine moves_current rfl rfl rfl (fun c hc => List.mem_cons_of_mem _ hc) ?_
        intro k n hk
        rcases pins_current _ _ _ _ _ hpins hk with hk | rfl
        · exact .inl (settles_current _ _ _ hk)
        · exact .inr rfl

theorem applyIn_commits {piSession seq at_ : Nat} {pins settles : List Nat}
    (h : db.applyIn piSession seq pins settles at_ = .ok db') :
    (piSession, seq) ∈ db'.commits ∧ db'.runs = db.runs ∧ db'.leases = db.leases := by
  unfold applyIn at h
  split at h
  · rename_i hmem
    cases h
    exact ⟨hmem, rfl, rfl⟩
  · split at h
    · cases h
    · dsimp only at h
      cases hpins : pins.foldlM (pin piSession at_)
          (db.checkpointRows piSession settles).current with
      | error e =>
        rw [hpins] at h
        cases h
      | ok current =>
        rw [hpins] at h
        cases h
        exact ⟨List.mem_cons_self .., rfl, rfl⟩

theorem moves_anchor {r at_ : Nat} {row : RunRow} (hrow : db.runs.get r = some row) :
    Moves db (db.anchorRun r at_) (some at_) (some at_) := by
  refine moves_run hrow (Table.get_modify_of_get hrow _) rfl rfl rfl rfl rfl (fun _ => id)
    (fun _ => .inl) ?_ (.inl ⟨rfl, ?_⟩)
  · intro hopen n hn
    dsimp only at hopen hn
    cases hf : row.firstOffset with
    | none =>
      rw [hf] at hn
      cases hn
      exact .inr rfl
    | some first =>
      rw [hf] at hn
      cases hn
      exact .inl ⟨hopen, rfl⟩
  · intro hf
    dsimp only
    rw [Option.isSome_or, hf, Bool.true_or]

theorem moves_projectCommit {scope : FactScope} {seq at_ : Nat} {pins settles : List Nat}
    (h : db.projectCommit scope seq pins settles at_ = .ok db') :
    Moves db db' (some at_) (some at_) := by
  unfold projectCommit at h
  split at h
  · rename_i run writer hrun hwriter
    split at h
    · cases h
      exact .refl db _ _
    · split at h
      · cases h
        exact .refl db _ _
      · cases happ : db.applyIn scope.piSession seq pins settles at_ with
        | error e =>
          rw [happ] at h
          cases h
        | ok applied =>
          rw [happ] at h
          cases h
          have hrun' : applied.runs.get scope.run = some run := by
            rw [(applyIn_commits happ).2.1, hrun]
          exact ((moves_applyIn happ).trans (moves_anchor hrun')).trans (moves_record _ _ _)
  · cases h
    exact .refl db _ _

theorem moves_checkpointLive (db : Rows) (piSession : Nat) (offset anchor : Option Nat) :
    Moves db (db.checkpointLiveIn piSession) offset anchor := by
  refine moves_current rfl rfl rfl (fun _ => id) (fun k n hk => .inl ?_)
  have hk' : (db.current.get k).map
      (fun replay => if k.1 = piSession then none else replay) = some (some n) := hk
  obtain ⟨replay, hget, heq⟩ := Option.map_eq_some_iff.mp hk'
  split at heq
  · cases heq
  · rw [hget, heq]

theorem moves_sealWriter {writer at_ : Nat} {f : LeaseRow → LeaseRow}
    (hf : ∀ row, db.leases.get writer = some row → (f row).piSession = row.piSession ∧
      ((f row).sealOffset = row.sealOffset ∨
        (∀ k, row.sealOffset = some k → at_ ≤ k) ∧ (f row).sealOffset = some at_)) :
    Moves db { db with leases := db.leases.modify writer f } (some at_) anchor := by
  refine moves_lease (fun row hrow => ⟨(hf row hrow).1, ?_, ?_⟩)
  · intro k hk
    rcases (hf row hrow).2 with h | ⟨hle, h⟩
    · exact ⟨k, Nat.le_refl k, h.trans hk⟩
    · exact ⟨at_, hle k hk, h⟩
  · intro k hk
    rcases (hf row hrow).2 with h | ⟨_, h⟩
    · exact .inl (h.symm.trans hk)
    · rw [h] at hk
      exact .inr hk

theorem moves_sealRun (db : Rows) (at_ : Nat) (anchor : Option Nat) {r : Nat} {row : RunRow} (f : RunRow → RunRow)
    (hrow : db.runs.get r = some row) (hopen : row.sealOffset = none)
    (hf : (f row).session = row.session ∧ (f row).lease = row.lease ∧
      (f row).sealOffset = some at_ ∧ (f row).firstOffset = row.firstOffset.or (some at_)) :
    Moves db { db with runs := db.runs.modify r f } (some at_) anchor := by
  obtain ⟨hsession, hlease, hseal, hfirst⟩ := hf
  refine moves_run hrow (Table.get_modify_of_get hrow f) rfl rfl rfl rfl hsession ?_ ?_ ?_
    (.inl ⟨hlease, ?_⟩)
  · intro k hk
    rw [hopen] at hk
    cases hk
  · intro k hk
    rw [hseal] at hk
    exact .inr hk
  · intro hnone
    rw [hseal] at hnone
    cases hnone
  · intro hf
    rw [hfirst, Option.isSome_or, hf, Bool.true_or]

theorem moves_finishWork {scope : FactScope} {nativeSequence at_ : Nat}
    (h : db.finishWork scope nativeSequence at_ = .ok db') :
    Moves db db' (some at_) none := by
  unfold finishWork at h
  split at h
  · rename_i run writer hrun hwriter
    split at h
    · split at h
      · cases h
      · cases h
        exact moves_record _ _ _
    · rename_i hheld
      split at h
      · cases h
      · split at h
        · cases h
          exact moves_record _ _ _
        · rename_i hopen
          have hopen' : run.sealOffset = none := by simpa using hopen
          split at h
          · cases h
          · have hlive := moves_checkpointLive db scope.piSession (some at_) none
            dsimp only at h
            split at h
            · cases h
              exact hlive.trans (moves_record _ _ _)
            · cases h
              -- the Run and, where it has not failed, its writer are sealed together
              have hrun₁ := moves_sealRun (db.checkpointLiveIn scope.piSession) at_ none (fun run =>
                { run with terminal := true
                           sealOffset := some at_
                           firstOffset := run.firstOffset.or (some at_) })
                hrun hopen' ⟨rfl, rfl, rfl, rfl⟩
              refine (hlive.trans hrun₁).trans (Moves.trans ?_ (moves_record _ _ _))
              by_cases hfail : writer.failed = true
              · rw [if_pos hfail]
                exact .refl _ _ _
              · rw [if_neg hfail]
                refine moves_sealWriter (fun row hrow => ⟨rfl, .inr ⟨fun k hk => ?_, rfl⟩⟩)
                rw [show row = writer from Option.some.inj (hrow.symm.trans hwriter)] at hk
                have := (not_or.mp hheld).2
                rw [hk] at this
                simpa using this
  · cases h
    exact .refl db _ _

theorem moves_seal {scope : FactScope} {factId at_ : Nat} {recover : Bool}
    (h : db.sealRun scope factId recover at_ = .ok db') :
    Moves db db' (some at_) none := by
  unfold sealRun at h
  split at h
  · rename_i run writer hrun hwriter
    have hlive := moves_checkpointLive db scope.piSession (some at_) none
    split at h
    · cases h
      exact moves_record _ _ _
    · split at h
      · cases h
      · rename_i hmatch
        have hheld : run.lease = some scope.writer := by
          have := (not_or.mp hmatch).2
          simpa using this
        split at h
        · split at h
          · rename_i hfree
            cases h
            refine (hlive.trans ?_).trans (moves_record _ _ _)
            refine moves_sealWriter (fun row hrow => ⟨rfl, .inr ⟨fun k hk => ?_, rfl⟩⟩)
            rw [show row = writer from Option.some.inj (hrow.symm.trans hwriter)] at hk
            rw [hk] at hfree
            cases hfree
          · cases h
            exact moves_record _ _ _
        · rename_i hopen
          have hopen' : run.sealOffset = none := by simpa using hopen
          have hwrite : Moves db
              { db.checkpointLiveIn scope.piSession with
                leases := db.leases.modify scope.writer (fun w =>
                  { w with sealOffset := w.sealOffset.or (some at_) }) } (some at_) none := by
            refine hlive.trans (moves_sealWriter (fun row hrow => ⟨rfl, ?_⟩))
            cases hs : row.sealOffset with
            | none => exact .inr ⟨nofun, by simp⟩
            | some k => exact .inl (by simp)
          dsimp only at h
          split at h
          · split at h
            · cases h
            · cases h
              refine (hwrite.trans ?_).trans (moves_record _ _ _)
              have hclear := Table.get_modify_of_get hrun (fun run : RunRow =>
                { run with lease := none, sealId := none, sealOffset := none, firstOffset := none })
              refine moves_run hrun hclear rfl rfl rfl rfl rfl ?_ nofun nofun
                (.inr (.inl ⟨rfl, fun w hw => ?_⟩))
              · intro k hk
                rw [hopen'] at hk
                cases hk
              · have hw' : w = scope.writer := Option.some.inj (hw.symm.trans hheld)
                subst hw'
                refine ⟨writer.sealOffset.getD at_,
                  { writer with sealOffset := writer.sealOffset.or (some at_) }, ?_, ?_⟩
                · rw [Table.get_modify_self, hwriter]
                  rfl
                · cases writer.sealOffset <;> rfl
          · cases h
            exact (hwrite.trans (moves_sealRun _ at_ _ _ hrun hopen' ⟨rfl, rfl, rfl, rfl⟩)).trans
              (moves_record _ _ _)
  · cases h
    exact .refl db _ _

theorem moves_projectFact {fact : FactRecord} {at_ : Nat} {known : Bool}
    (h : db.projectFact fact at_ known = .ok db') :
    Moves db db' (some at_) (match fact with
      | .durableCommit .. => some at_
      | _ => none) := by
  unfold projectFact at h
  cases fact with
  | durableCommit scope seq pins settles =>
    dsimp only at h
    split at h
    · cases h
    · cases h
      exact .refl db _ _
    · exact moves_projectCommit h
  | agentEvent scope | observation =>
    cases h
    exact .refl db _ _
  | coveredEvent scope terminal =>
    dsimp only at h
    split at h
    · cases h
    · cases h
      split
      · exact moves_record _ _ _
      · exact .refl db _ _
  | workFinished scope nativeSequence => exact moves_finishWork h
  | executionSeal scope factId recover =>
    dsimp only at h
    split at h
    · cases h
    · exact moves_seal h
  | controlChange =>
    cases h
    exact moves_record _ _ _

end Moves

/-! ### A commit that is projected again -/

def Granted (db : Rows) (run writer : Nat) : Prop :=
  db.Held run writer ∨ db.Dead run writer

def Admitted (db : Rows) (scope : FactScope) : Prop :=
  db.Granted scope.run scope.writer ∧
    ∃ row, db.leases.get scope.writer = some row ∧ row.piSession = scope.piSession

/-- The commit was projected, or never can be. -/
def Spent (db : Rows) (scope : FactScope) (seq offset : Nat) : Prop :=
  (∃ k < offset, db.SealedAt scope.writer k) ∨
  (∃ row, db.runs.get scope.run = some row ∧ row.session ≠ scope.session) ∨
  (∃ row, db.runs.get scope.run = some row ∧ ∃ k ≤ offset, row.sealOffset = some k) ∨
  db.Dead scope.run scope.writer ∨
  (scope.piSession, seq) ∈ db.commits ∧ db.Begun scope.run scope.writer

section Spent

variable {db db' : Rows} {scope : FactScope} {seq offset : Nat}

theorem Later.granted (h : Later db db') {r w : Nat} (hg : db.Granted r w) : db'.Granted r w :=
  hg.elim (h.held r w) (fun hd => .inr (h.dead r w hd))

theorem Later.admitted (h : Later db db') (ha : db.Admitted scope) : db'.Admitted scope := by
  obtain ⟨hg, row, hrow, hpi⟩ := ha
  obtain ⟨row', hrow', hsame, _⟩ := h.leases _ row hrow
  exact ⟨h.granted hg, row', hrow', hsame.trans hpi⟩

theorem Later.spent (h : Later db db') (hs : db.Spent scope seq offset) :
    db'.Spent scope seq offset := by
  rcases hs with ⟨k, hlt, hk⟩ | ⟨row, hrow, hne⟩ | ⟨row, hrow, k, hle, hk⟩ | hdead | ⟨hcom, hbegun⟩
  · obtain ⟨k', hle, hk'⟩ := h.sealedAt hk
    exact .inl ⟨k', by omega, hk'⟩
  · obtain ⟨row', hrow', hsame, _⟩ := h.runs _ row hrow
    exact .inr (.inl ⟨row', hrow', by rwa [hsame]⟩)
  · obtain ⟨row', hrow', _, hkeep⟩ := h.runs _ row hrow
    exact .inr (.inr (.inl ⟨row', hrow', k, hle, hkeep k hk⟩))
  · exact .inr (.inr (.inr (.inl (h.dead _ _ hdead))))
  · rcases h.begun _ _ hbegun with hb | hd
    · exact .inr (.inr (.inr (.inr ⟨h.commits _ hcom, hb⟩)))
    · exact .inr (.inr (.inr (.inl hd)))

theorem anchored_required {r at_ : Nat} {row : RunRow} (hrow : db.runs.get r = some row)
    (hf : row.firstOffset.isSome = true) :
    ∀ n ∈ (db.anchorRun r at_).required, n ∈ db.required := by
  intro n hn
  rcases mem_required.mp hn with ⟨j, q, hq, hopen, hn⟩ | h
  · refine mem_required.mpr (.inl ?_)
    have hq' := (Table.get_modify_of_get hrow _ j).symm.trans hq
    split at hq'
    · cases hq'
      obtain ⟨first, hfirst⟩ := Option.isSome_iff_exists.mp hf
      dsimp only at hopen hn
      rw [hfirst] at hn
      exact ⟨r, row, hrow, hopen, by rw [hfirst]; exact hn⟩
    · exact ⟨j, q, hq', hopen, hn⟩
  · exact mem_required.mpr (.inr h)

theorem Spent.required (hs : db.Spent scope seq offset) {pins settles : List Nat}
    (h : db.projectCommit scope seq pins settles offset = .ok db') :
    ∀ n ∈ db'.required, n ∈ db.required := by
  unfold projectCommit at h
  split at h
  · rename_i run writer hrun hwriter
    split at h
    · cases h
      exact fun n hn => hn
    · rename_i hfree
      split at h
      · cases h
        exact fun n hn => hn
      · rename_i hadm
        obtain ⟨hlease, hrest⟩ := not_or.mp hadm
        obtain ⟨hsession, hseal⟩ := not_or.mp hrest
        rcases hs with ⟨k, hlt, row, hrow, hk⟩ | ⟨row, hrow, hne⟩ | ⟨row, hrow, k, hle, hk⟩ |
          ⟨⟨row, hrow, hne⟩, _⟩ | ⟨hcom, row, hrow, _, hbegun⟩
        · cases hwriter.symm.trans hrow
          simp [hk, hlt] at hfree
        · cases hrun.symm.trans hrow
          exact absurd hne hsession
        · cases hrun.symm.trans hrow
          simp [hk, hle] at hseal
        · cases hrun.symm.trans hrow
          exact absurd hne hlease
        · have happ : db.applyIn scope.piSession seq pins settles offset = .ok db := by
            unfold applyIn
            rw [if_pos hcom]
          rw [happ] at h
          cases h
          exact anchored_required hrow hbegun
  · cases h
    exact fun n hn => hn

theorem projectFact_spent {pins settles : List Nat} {known : Bool} (ha : db.Admitted scope)
    (hlease : ∀ w k, db.SealedAt w k → k < offset)
    (hrun : ∀ r row k, db.runs.get r = some row → row.sealOffset = some k → k < offset)
    (h : db.projectFact (.durableCommit scope seq pins settles) offset known = .ok db') :
    db'.Spent scope seq offset := by
  obtain ⟨hg, writer, hwriter, hpi⟩ := ha
  obtain ⟨run, hget⟩ : ∃ run, db.runs.get scope.run = some run := by
    rcases hg with ⟨run, hget, _⟩ | ⟨⟨run, hget, _⟩, _⟩ <;> exact ⟨run, hget⟩
  have hother : run.lease ≠ some scope.writer → db.Dead scope.run scope.writer := by
    intro hne
    rcases hg with ⟨row, hrow, hl⟩ | hd
    · cases hget.symm.trans hrow
      exact absurd hl hne
    · exact hd
  unfold projectFact at h
  dsimp only at h
  split at h
  · cases h
  · rename_i hclosed
    cases h
    split at hclosed
    · cases hclosed
    · unfold isOpen at hclosed
      rw [hget, hwriter] at hclosed
      dsimp only at hclosed
      rw [if_neg (by simpa using hpi)] at hclosed
      split at hclosed
      · rename_i hl
        exact .inr (.inr (.inr (.inl (hother hl))))
      · split at hclosed
        · rename_i hcut
          obtain ⟨k, hk, _⟩ := (Option.any_eq_true _ _).mp hcut
          have hs : db.SealedAt scope.writer k := ⟨writer, hwriter, hk⟩
          exact .inl ⟨k, hlease _ _ hs, hs⟩
        · split at hclosed
          · rename_i hsealed
            obtain ⟨k, hk⟩ := Option.isSome_iff_exists.mp hsealed
            have := hrun _ _ _ hget hk
            exact .inr (.inr (.inl ⟨run, hget, k, by omega, hk⟩))
          · split at hclosed <;> cases hclosed
  · unfold projectCommit at h
    rw [hget, hwriter] at h
    dsimp only at h
    split at h
    · rename_i hcut
      cases h
      obtain ⟨k, hk, hlt⟩ := (Option.any_eq_true _ _).mp hcut
      exact .inl ⟨k, by simpa using hlt, writer, hwriter, hk⟩
    · split at h
      · rename_i hadm
        cases h
        rcases hadm with hl | hsession | hcut
        · exact .inr (.inr (.inr (.inl (hother hl))))
        · exact .inr (.inl ⟨run, hget, hsession⟩)
        · obtain ⟨k, hk, hle⟩ := (Option.any_eq_true _ _).mp hcut
          exact .inr (.inr (.inl ⟨run, hget, k, by simpa using hle, hk⟩))
      · rename_i hadm
        have hl : run.lease = some scope.writer := by
          have := (not_or.mp hadm).1
          simpa using this
        cases happ : db.applyIn scope.piSession seq pins settles offset with
        | error e =>
          rw [happ] at h
          cases h
        | ok applied =>
          rw [happ] at h
          cases h
          obtain ⟨hcom, hruns, _⟩ := applyIn_commits happ
          have hget' : applied.runs.get scope.run = some run := by rw [hruns, hget]
          refine .inr (.inr (.inr (.inr ⟨hcom,
            { run with firstOffset := run.firstOffset.or (some offset) }, ?_, hl, ?_⟩)))
          · exact (Table.get_modify_of_get hget' _ _).trans (if_pos rfl)
          · cases run.firstOffset <;> rfl

end Spent

end Rows

/-! ## Runs of the stream -/

/-- Every record before `frontier` was projected once, and the sweeps stay at or below the recovery
floor. -/
structure Safe (s : Stream) (frontier : Nat) : Prop where
  granted : ∀ p ∈ s.granted, s.db.Granted p.1 p.2
  admitted : ∀ fact ∈ s.log, ∀ scope ∈ fact.scope, s.db.Admitted scope
  read : frontier ≤ s.log.length
  positions : ∀ m p, s.projectors m = some p → p.position ≤ frontier
  checkpoint : ∀ c, s.db.checkpoint = some c → c ≤ frontier
  leaseSeals : ∀ w k, s.db.SealedAt w k → k < frontier
  runSeals : ∀ r row k, s.db.runs.get r = some row → row.sealOffset = some k → k < frontier
  spent : ∀ offset < frontier, ∀ scope seq pins settles,
    s.log[offset]? = some (.durableCommit scope seq pins settles) → s.db.Spent scope seq offset
  low : s.low = 0 ∨ s.db.AtLeast s.low
  targets : ∀ t ∈ s.targets, s.db.AtLeast t

namespace Safe

open Rows

variable {s : Stream} {frontier : Nat}

theorem initial : Safe {} 0 where
  granted := by simp
  admitted := by simp
  read := Nat.le_refl 0
  positions := nofun
  checkpoint := nofun
  leaseSeals := nofun
  runSeals := nofun
  spent := nofun
  low := .inl rfl
  targets := by simp

/-- The floor stays past `f` where nothing below `f` comes to be protected. -/
theorem atLeast_moves {db db' : Rows} {offset anchor : Option Nat} {f : Nat}
    (hm : Moves db db' offset anchor) (h : db.AtLeast f)
    (hreq : ∀ n ∈ db'.required, n ∈ db.required ∨ f ≤ n) : db'.AtLeast f := by
  obtain ⟨c, hc, hle, hold⟩ := h
  obtain ⟨c', hc', hcc⟩ := hm.checkpoint c hc
  refine ⟨c', hc', Nat.le_trans hle hcc, fun n hn => ?_⟩
  rcases hreq n hn with h | h
  · exact hold n h
  · exact h

theorem moves (h : Safe s frontier) {db : Rows} {offset anchor : Option Nat} {next : Nat}
    (hm : Moves s.db db offset anchor) (hnext : frontier ≤ next) (hread : next ≤ s.log.length)
    (hoff : ∀ o ∈ offset, o < next)
    (hreq : ∀ f, s.db.AtLeast f → ∀ n ∈ db.required, n ∈ s.db.required ∨ f ≤ n)
    (hspent : ∀ o < next, frontier ≤ o → ∀ scope seq pins settles,
      s.log[o]? = some (.durableCommit scope seq pins settles) → db.Spent scope seq o) :
    Safe { s with db } next where
  granted p hp := hm.later.granted (h.granted p hp)
  admitted fact hf scope hs := hm.later.admitted (h.admitted fact hf scope hs)
  read := hread
  positions m p hp := Nat.le_trans (h.positions m p hp) hnext
  checkpoint c hc := by
    rcases hm.reached c hc with ⟨o, ho, hle⟩ | hc
    · have := hoff o ho
      omega
    · exact Nat.le_trans (h.checkpoint c hc) hnext
  leaseSeals w k hk := by
    rcases hm.leaseSeals w k hk with hk | hk
    · exact Nat.lt_of_lt_of_le (h.leaseSeals w k hk) hnext
    · exact hoff k hk
  runSeals r row k hr hk := by
    rcases hm.runSeals r row k hr hk with ⟨q, hq, hk⟩ | hk
    · exact Nat.lt_of_lt_of_le (h.runSeals r q k hq hk) hnext
    · exact hoff k hk
  spent o ho scope seq pins settles hget := by
    by_cases hlt : o < frontier
    · exact hm.later.spent (h.spent o hlt scope seq pins settles hget)
    · exact hspent o ho (by omega) scope seq pins settles hget
  low := h.low.imp_right (fun hl => atLeast_moves hm hl (hreq _ hl))
  targets t ht := atLeast_moves hm (h.targets t ht) (hreq t (h.targets t ht))

theorem idle (h : Safe s frontier) {db : Rows} (hm : Moves s.db db none none) :
    Safe { s with db } frontier := by
  refine h.moves hm (Nat.le_refl _) h.read nofun (fun f _ n hn => ?_) (fun o ho hf => ?_)
  · rcases hm.required n hn with hn | hn
    · exact .inl hn
    · cases hn
  · omega

theorem setProjector (h : Safe s frontier) (member : Nat) (p : Option Projector)
    (hp : ∀ q, p = some q → q.position ≤ frontier) :
    Safe (s.setProjector member p) frontier where
  granted := h.granted
  admitted := h.admitted
  read := h.read
  positions m q hq := by
    have hq' : Function.update s.projectors member p m = some q := hq
    rw [Function.update_apply] at hq'
    split at hq'
    · exact hp q hq'
    · exact h.positions m q hq'
  checkpoint := h.checkpoint
  leaseSeals := h.leaseSeals
  runSeals := h.runSeals
  spent := h.spent
  low := h.low
  targets := h.targets

theorem current_some {member : Nat} {p : Projector} {fact : FactRecord}
    (hc : s.current member = some (p, fact)) :
    s.projectors member = some p ∧ s.log[p.position]? = some fact := by
  unfold Stream.current at hc
  split at hc
  · rename_i q hq
    obtain ⟨f, hf, heq⟩ := Option.map_eq_some_iff.mp hc
    cases heq
    exact ⟨hq, hf⟩
  · cases hc

theorem project (h : Safe s frontier) {member : Nat} {p : Projector} {fact : FactRecord}
    {known : Bool} {db : Rows} (hc : s.current member = some (p, fact))
    (hok : s.db.projectFact fact p.position known = .ok db) :
    Safe { s with db } (max frontier (p.position + 1)) := by
  obtain ⟨hproj, hget⟩ := current_some hc
  have hpos := h.positions member p hproj
  have hlen : p.position < s.log.length := (List.getElem?_eq_some_iff.mp hget).1
  have hread := h.read
  have hm := moves_projectFact hok
  refine h.moves hm (Nat.le_max_left _ _) (by omega) (fun o ho => ?_) ?_ ?_
  · cases ho
    omega
  · intro f hf n hn
    rcases hm.required n hn with hn' | hn'
    · exact .inl hn'
    · cases fact with
      | durableCommit scope seq pins settles =>
        cases hn'
        by_cases hagain : p.position < frontier
        · -- a commit that is spent protects nothing new
          have hs := h.spent _ hagain scope seq pins settles hget
          unfold projectFact at hok
          dsimp only at hok
          split at hok
          · cases hok
          · cases hok
            exact .inl hn
          · exact .inl (hs.required hok _ hn)
        · obtain ⟨c, hc', hle, _⟩ := hf
          have := h.checkpoint c hc'
          exact .inr (by omega)
      | _ => cases hn'
  · intro o ho hfo scope seq pins settles hget'
    have heq : o = p.position := by omega
    subst heq
    have hf : p.position = frontier := by omega
    rw [hget'] at hget
    cases hget
    have hadm := h.admitted _ (List.mem_of_getElem? hget') scope rfl
    exact projectFact_spent hadm (fun w k hk => by rw [hf]; exact h.leaseSeals w k hk)
      (fun r row k hr hk => by rw [hf]; exact h.runSeals r row k hr hk) hok

theorem anchor (h : Safe s frontier) {member : Nat} {p : Projector} {scope : FactScope}
    (hc : s.current member = some (p, .agentEvent scope)) (hg : s.Guard (.anchor member)) :
    Safe { s with db := s.db.anchorRun scope.run p.position } (max frontier (p.position + 1)) := by
  obtain ⟨hproj, hget⟩ := current_some hc
  have hpos := h.positions member p hproj
  have hlen : p.position < s.log.length := (List.getElem?_eq_some_iff.mp hget).1
  have hread := h.read
  -- the record at the frontier is no commit
  have hspent : ∀ db : Rows, ∀ o < max frontier (p.position + 1), frontier ≤ o →
      ∀ scope seq pins settles, s.log[o]? = some (.durableCommit scope seq pins settles) →
        db.Spent scope seq o := by
    intro db o ho hfo scope seq pins settles hget'
    have heq : o = p.position := by omega
    rw [heq, hget] at hget'
    cases hget'
  cases hrow : s.db.runs.get scope.run with
  | none =>
    have hsame : s.db.anchorRun scope.run p.position = s.db := by
      simp [anchorRun, Table.modify, hrow]
    rw [hsame]
    exact h.moves (.refl s.db none none) (Nat.le_max_left _ _) (by omega) nofun
      (fun f _ n hn => .inl hn) (hspent _)
  | some row =>
    refine h.moves (moves_anchor hrow) (Nat.le_max_left _ _) (by omega) (fun o ho => ?_) ?_
      (hspent _)
    · cases ho
      omega
    · intro f hf n hn
      by_cases hfirst : row.firstOffset.isSome = true
      · exact .inl (anchored_required hrow hfirst n hn)
      · rcases (moves_anchor hrow).required n hn with hn | hn
        · exact .inl hn
        · cases hn
          obtain ⟨g, hfloor, hle⟩ := hf.floor
          unfold Stream.Guard at hg
          dsimp only at hg
          rw [hc] at hg
          have := hg (by rw [hrow]; simpa using hfirst) g hfloor
          exact .inr (Nat.le_trans hle this)

theorem claim (h : Safe s frontier) {run writer : Nat} (piSession : Nat) {row : RunRow}
    (hrow : s.db.runs.get run = some row) (hfree : row.lease = none)
    (hopen : ∀ l, s.db.leases.get writer = some l → l.sealOffset = none) :
    Safe { s with
      db := (s.db.openLease writer piSession).leaseRun run row writer
      granted := (run, writer) :: s.granted } frontier := by
  have hlease : Moves s.db (s.db.openLease writer piSession) none none := by
    unfold openLease
    split
    · exact .refl _ _ _
    · rename_i hnone
      exact moves_newLease (by simpa using hnone) piSession
  have hunsealed : ∀ k, ¬ (s.db.openLease writer piSession).SealedAt writer k := by
    intro k ⟨l, hl, hk⟩
    unfold openLease at hl
    dsimp only at hl
    split at hl
    · rw [hopen l hl] at hk
      cases hk
    · rw [Table.get_set_self] at hl
      cases hl
      cases hk
  have hrun : Moves (s.db.openLease writer piSession)
      ((s.db.openLease writer piSession).leaseRun run row writer) none none := by
    refine moves_run hrow (fun j => Table.get_set _ _ _ _) rfl rfl rfl rfl rfl (fun _ => id)
      (fun _ => .inl) (fun ho n hn => .inl ⟨ho, hn⟩) (.inr (.inr ⟨hfree, fun w hw => ?_⟩))
    cases hw
    exact hunsealed
  have hsafe := h.idle (hlease.trans hrun)
  refine { hsafe with granted := fun p hp => ?_ }
  rcases List.mem_cons.mp hp with rfl | hp
  · exact .inl ⟨_, Table.get_set_self _ _ _, rfl⟩
  · exact hsafe.granted p hp

theorem low_le (h : Safe s frontier) : s.low ≤ frontier := by
  rcases h.low with h0 | ⟨c, hc, hle, _⟩
  · omega
  · exact Nat.le_trans hle (h.checkpoint c hc)

theorem act (h : Safe s frontier) {a : StreamTurn} {t : Stream} (hg : s.Guard a)
    (hact : s.act a = some t) : ∃ next, Safe t next := by
  cases a with
  | create run session =>
    unfold Stream.act at hact
    dsimp only at hact
    split at hact
    · cases hact
    · rename_i hnone
      cases hact
      exact ⟨_, h.idle (moves_newRun (by simpa using hnone) _ ⟨rfl, rfl⟩)⟩
  | claim run writer piSession =>
    unfold Stream.act at hact
    dsimp only at hact
    split at hact
    · rename_i row hrow
      split at hact
      · cases hact
      · rename_i hfree
        cases hact
        simp only [Bool.or_eq_true, not_or] at hfree
        refine ⟨_, h.claim piSession hrow (by simpa using hfree.1) (fun l hl => ?_)⟩
        have := hfree.2
        rw [hl] at this
        simpa using this
    · cases hact
  | settle run =>
    cases hact
    exact ⟨_, h.idle (moves_markRun _ _ _ (fun _ => ⟨rfl, rfl, rfl, rfl⟩))⟩
  | requestSeal run factId =>
    cases hact
    exact ⟨_, h.idle (moves_markRun _ _ _ (fun _ => ⟨rfl, rfl, rfl, rfl⟩))⟩
  | failWriter writer =>
    cases hact
    exact ⟨_, h.idle (moves_lease (fun _ _ =>
      ⟨rfl, fun k hk => ⟨k, Nat.le_refl k, hk⟩, fun _ => .inl⟩))⟩
  | append fact =>
    unfold Stream.act at hact
    obtain ⟨hadm, rfl⟩ := ite_some hact
    refine ⟨frontier, { h with
      admitted := fun f hf scope hscope => ?_
      read := ?_
      spent := fun o ho scope seq pins settles hget => ?_ }⟩
    · rcases List.mem_append.mp hf with hf | hf
      · exact h.admitted f hf scope hscope
      · rw [List.mem_singleton.mp hf, Option.mem_def] at hscope
        rw [hscope] at hadm
        obtain ⟨hgr, hany⟩ : (scope.run, scope.writer) ∈ s.granted ∧
            (s.db.leases.get scope.writer).any (fun l => l.piSession = scope.piSession) = true := by
          simpa using hadm
        obtain ⟨l, hl, hpi⟩ := (Option.any_eq_true _ _).mp hany
        exact ⟨h.granted _ hgr, l, hl, by simpa using hpi⟩
    · exact Nat.le_trans h.read (by simp)
    · rw [List.getElem?_append_left (Nat.lt_of_lt_of_le ho h.read)] at hget
      exact h.spent o ho scope seq pins settles hget
  | assign member bound delivery =>
    unfold Stream.act at hact
    dsimp only at hact
    split at hact
    · rename_i hbound
      split at hact
      · rename_i start hstart
        cases hact
        refine ⟨frontier, h.setProjector member _ (fun q hq => ?_)⟩
        cases hq
        have hle := loadFactReplayOffset_le hstart
        have hlow := h.low_le
        have hcheck : s.db.checkpoint.getD 0 ≤ frontier := by
          cases hc : s.db.checkpoint with
          | none => exact Nat.zero_le _
          | some c => exact h.checkpoint c hc
        show min start delivery ≤ frontier
        omega
      · cases hact
    · cases hact
  | project member known retry =>
    unfold Stream.act at hact
    dsimp only at hact
    split at hact
    · rename_i p fact hc
      split at hact
      · rename_i db hok
        cases hact
        refine ⟨_, (h.project hc hok).setProjector member _ (fun q hq => ?_)⟩
        cases hq
        dsimp only
        split <;> omega
      · cases hact
    · cases hact
  | look member known =>
    unfold Stream.act at hact
    dsimp only at hact
    split at hact
    · rename_i p scope hc
      split at hact
      · cases hact
        refine ⟨_, h.setProjector member _ (fun q hq => ?_)⟩
        cases hq
        exact h.positions member p (current_some hc).1
      · cases hact
    · cases hact
  | anchor member =>
    unfold Stream.act at hact
    dsimp only at hact
    split at hact
    · rename_i p scope hc
      obtain ⟨-, rfl⟩ := ite_some hact
      refine ⟨_, (h.anchor hc hg).setProjector member _ (fun q hq => ?_)⟩
      cases hq
      exact Nat.le_max_right _ _
    · cases hact
  | crash member =>
    cases hact
    exact ⟨_, h.setProjector member none nofun⟩
  | capture time =>
    cases hact
    exact ⟨_, { h with }⟩
  | readFloor captured =>
    unfold Stream.act at hact
    dsimp only at hact
    split at hact
    · split at hact
      · rename_i offset hoffset
        cases hact
        obtain ⟨f, hf, hle⟩ := sweepOffset_le hoffset
        have hnew : s.db.AtLeast offset := (retentionFloor_atLeast hf).mono hle
        refine ⟨frontier, { h with targets := fun t ht => ?_ }⟩
        rcases List.mem_cons.mp ht with rfl | ht
        · exact hnew
        · exact h.targets t ht
      · cases hact
        exact ⟨_, h⟩
    · cases hact
  | deleteRecords offset =>
    unfold Stream.act at hact
    obtain ⟨hmem, rfl⟩ := ite_some hact
    refine ⟨frontier, { h with low := .inr ?_ }⟩
    have hnew := h.targets offset hmem
    rcases h.low with h0 | hold
    · show s.db.AtLeast (max s.low offset)
      rwa [h0, Nat.zero_max]
    · show s.db.AtLeast (max s.low offset)
      rcases Nat.le_total s.low offset with hle | hle
      · rwa [Nat.max_eq_right hle]
      · rwa [Nat.max_eq_left hle]

end Safe

theorem reach_turn {turns : List StreamTurn} {s t : Stream} (h : Reach stream turns s)
    (a : StreamTurn) (hact : s.act a = some t) : Reach stream (turns ++ [a]) t :=
  h.next hact

theorem reach_guarded {turns : List StreamTurn} {s t : Stream}
    (h : Reach (stream.guard Stream.Guard) turns s) (a : StreamTurn) (hg : s.Guard a)
    (hact : s.act a = some t) : Reach (stream.guard Stream.Guard) (turns ++ [a]) t :=
  h.next ⟨hg, hact⟩

theorem reach_safe {turns : List StreamTurn} {s : Stream}
    (h : Reach (stream.guard Stream.Guard) turns s) : ∃ frontier, Safe s frontier := by
  refine Reach.invariant (fun s => ∃ frontier, Safe s frontier) ?_ ?_ h
  · intro s hs
    cases hs
    exact ⟨0, .initial⟩
  · intro s a t ⟨frontier, hsafe⟩ ⟨hguard, hact⟩
    exact hsafe.act hguard hact

/-- Where every display anchor lands at or above the floor, a recovery never finds its position
expired, and starts at or past every offset that a sweep has settled on. -/
theorem retention_safe {turns : List StreamTurn} {s : Stream}
    (h : Reach (stream.guard Stream.Guard) turns s) (bound : KafkaPartitionBounds)
    (hlow : bound.low ≤ s.low) (hhigh : bound.low ≤ bound.high) :
    ∃ start, loadFactReplayOffset s.db bound = .ok start ∧
      (∀ t ∈ s.targets, t ≤ bound.high → t ≤ start) ∧ (s.low ≤ bound.high → s.low ≤ start) := by
  obtain ⟨frontier, hsafe⟩ := reach_safe h
  have hbegin : bound.low = 0 ∨ s.db.AtLeast bound.low := by
    rcases hsafe.low with h0 | hl
    · exact .inl (by omega)
    · exact .inr (hl.mono hlow)
  obtain ⟨start, hok, hpast⟩ := loadFactReplayOffset_ok hbegin hhigh
  refine ⟨start, hok, fun t ht => hpast t (hsafe.targets t ht), fun hle => ?_⟩
  rcases hsafe.low with h0 | hl
  · omega
  · exact hpast _ hl hle

/-- A native commit that was deleted, or that the checkpoint or a projector is past, has been projected or
never can be. -/
theorem passed_spent {turns : List StreamTurn} {s : Stream}
    (h : Reach (stream.guard Stream.Guard) turns s) {offset seq : Nat} {scope : FactScope}
    {pins settles : List Nat} (hcommit : s.log[offset]? = some (.durableCommit scope seq pins settles))
    (hpast : offset < s.low ∨ (∃ c, s.db.checkpoint = some c ∧ offset < c) ∨
      ∃ m p, s.projectors m = some p ∧ offset < p.position) : s.db.Spent scope seq offset := by
  obtain ⟨frontier, hsafe⟩ := reach_safe h
  refine hsafe.spent offset ?_ scope seq pins settles hcommit
  obtain hlow | ⟨c, hc, hlt⟩ | ⟨m, p, hp, hlt⟩ := hpast
  · obtain h0 | ⟨c, hc, hle, -⟩ := hsafe.low
    · omega
    · have := hsafe.checkpoint c hc
      omega
  · have := hsafe.checkpoint c hc
    omega
  · have := hsafe.positions m p hp
    omega

def exampleScope : FactScope := ⟨0, 7, 5, 9⟩

/-- A Run commits and finishes, its records are swept, and a recovery starts after them. -/
theorem retention_safe_sweep :
    ∃ turns s, Reach (stream.guard Stream.Guard) turns s ∧ s.low = 2 ∧
      ∃ start, loadFactReplayOffset s.db ⟨1, 2⟩ = .ok start ∧
        (∀ t ∈ s.targets, t ≤ 2 → t ≤ start) ∧ (s.low ≤ 2 → s.low ≤ start) := by
  have h0 : Reach (stream.guard Stream.Guard) [] {} := .init rfl
  have h1 := reach_guarded h0 (.create 0 5) trivial rfl
  have h2 := reach_guarded h1 (.claim 0 7 9) trivial rfl
  have h3 := reach_guarded h2 (.append (.durableCommit exampleScope 1 [] [4])) trivial rfl
  have h4 := reach_guarded h3 (.append (.workFinished exampleScope 1)) trivial rfl
  have h5 := reach_guarded h4 (.assign 0 ⟨0, 2⟩ 0) trivial rfl
  have h6 := reach_guarded h5 (.project 0 false false) trivial rfl
  have h7 := reach_guarded h6 (.project 0 true false) trivial rfl
  have h8 := reach_guarded h7 (.capture none) trivial rfl
  have h9 := reach_guarded h8 (.readFloor (2, none)) trivial rfl
  have h10 := reach_guarded h9 (.deleteRecords 2) trivial rfl
  exact ⟨_, _, h10, rfl, retention_safe h10 ⟨1, 2⟩ (by decide) (by decide)⟩

theorem passed_spent_projected : ∃ turns s, Reach (stream.guard Stream.Guard) turns s ∧
    s.db.Spent exampleScope 1 0 := by
  have h0 : Reach (stream.guard Stream.Guard) [] {} := .init rfl
  have h1 := reach_guarded h0 (.create 0 5) trivial rfl
  have h2 := reach_guarded h1 (.claim 0 7 9) trivial rfl
  have h3 := reach_guarded h2 (.append (.durableCommit exampleScope 1 [] [4])) trivial rfl
  have h4 := reach_guarded h3 (.assign 0 ⟨0, 1⟩ 0) trivial rfl
  have h5 := reach_guarded h4 (.project 0 false false) trivial rfl
  exact ⟨_, _, h5, passed_spent h5 rfl (.inr (.inr ⟨0, _, rfl, Nat.one_pos⟩))⟩

/-- The anchor of a display event, written by a member that lost the partition: the Run was
recovered in the meantime, and the records before its seal were deleted. -/
theorem stale_anchor_expires :
    ¬ ∀ turns s, Reach stream turns s → ∀ bound : KafkaPartitionBounds,
      bound.low ≤ s.low → bound.low ≤ bound.high →
        ∃ start, loadFactReplayOffset s.db bound = .ok start ∧
          (∀ t ∈ s.targets, t ≤ bound.high → t ≤ start) ∧
          (s.low ≤ bound.high → s.low ≤ start) := by
  intro h
  have h0 : Reach stream [] {} := .init rfl
  have h1 := reach_turn h0 (.create 0 5) rfl
  have h2 := reach_turn h1 (.claim 0 7 9) rfl
  have h3 := reach_turn h2 (.append (.agentEvent exampleScope)) rfl
  have h4 := reach_turn h3 (.assign 0 ⟨0, 1⟩ 0) rfl
  have h5 := reach_turn h4 (.look 0 false) rfl
  -- the second member takes over before the first writes
  have h6 := reach_turn h5 (.assign 1 ⟨0, 1⟩ 0) rfl
  have h7 := reach_turn h6 (.look 1 false) rfl
  have h8 := reach_turn h7 (.anchor 1) rfl
  have h9 := reach_turn h8 (.requestSeal 0 3) rfl
  have h10 := reach_turn h9 (.append (.executionSeal exampleScope 3 true)) rfl
  have h11 := reach_turn h10 (.project 1 true false) rfl
  have h12 := reach_turn h11 (.capture none) rfl
  have h13 := reach_turn h12 (.readFloor (2, none)) rfl
  have h14 := reach_turn h13 (.deleteRecords 2) rfl
  have h15 := reach_turn h14 (.anchor 0) rfl
  obtain ⟨start, hok, _⟩ := h _ _ h15 ⟨2, 2⟩ (by decide) (by decide)
  cases hok

end Runtime
end PiCloud
