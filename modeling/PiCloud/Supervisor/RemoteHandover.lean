import PiCloud.Supervisor.RemotePublications

/-!
# Supervisor.RemoteHandover

Every run of a session that hands over remote tools:

* a command goes out with one publication at most, that of a prepared call only with the commit that
  records the call as executing, with the arguments that were prepared;
* a reply is waited for only when the command is out;
* the first commit that records the abort of a call that is out, and not known to be complete, carries
  its one cancellation.
-/

namespace PiCloud
namespace Supervisor
namespace Remote

open Lib

variable {α σ : Type} [DecidableEq α] [DecidableEq σ]

/-! ## An acknowledgement -/

section Acknowledge

variable {script : α → σ} {owners : Owners α σ} {s : State α σ} {p : Publication α σ}

theorem Inv.answered (h : Inv script owners s) (hp : s.inFlight = some p)
    {pending : Pendings α σ} (hmarks : Marks p s.pending pending) :
    Always (Sound script) (s.published ++ [p]) ∧
      Owned owners { s with inFlight := none, published := s.published ++ [p], pending } := by
  have hflight := h.flight p hp
  refine ⟨h.sound.snoc hflight.sound, ?_⟩
  constructor
  case length => exact h.owned.length
  case undispatched =>
    intro t e' hget hno
    obtain ⟨e, hget, hcommand, hkept, -⟩ := hmarks t e' hget
    rw [hcommand]
    refine h.owned.undispatched t e hget ?_
    rw [← Bool.not_eq_true]
    intro hyes
    rw [hkept hyes] at hno
    cases hno
  case dispatched =>
    intro t e' hget hyes
    obtain ⟨e, hget, hcommand, -, hwas⟩ := hmarks t e' hget
    rw [hcommand]
    cases hdispatched : e.dispatched with
    | true =>
      obtain ⟨q, hq, hin⟩ := h.owned.dispatched t e hget hdispatched
      exact ⟨q, List.mem_append_left _ hq, hin⟩
    | false =>
      refine ⟨p, List.mem_append_right _ (List.mem_singleton_self p), List.mem_append_left _ ?_⟩
      obtain hold | htask := hwas hyes
      · rw [hdispatched] at hold
        cases hold
      · obtain ⟨x, hx, rfl⟩ := List.mem_map.mp htask
        rwa [hflight.intents x hx e hget hdispatched]
  case controls => exact h.owned.controls
  case recovering => exact h.owned.recovering
  case published =>
    intro q hq
    obtain hq | hq := List.mem_append.mp hq
    · exact h.owned.published q hq
    · rw [List.mem_singleton.mp hq]
      exact h.owned.inFlight p hp
  case inFlight => nofun

theorem Inv.answered_live (h : Inv script owners s) (hp : s.inFlight = some p)
    (hlive : Live owners s) :
    Live owners { s with
      inFlight := none
      published := s.published ++ [p]
      pending := State.confirm s.pending p
      records := (tasksOf p.writes).foldl (fun m r => m.set r.id r) s.records
      documents := s.documents ++ (controlsOf p.writes).map Prod.fst } := by
  have hflight := h.flight p hp
  have hfound := hlive.flight p hp
  have howned := h.owned.inFlight p hp
  -- a task that has ended is not written again
  have hrecord : ∀ t old, s.records.get t = some old → old.status = .terminal →
      ((tasksOf p.writes).foldl (fun m r => m.set r.id r) s.records).get t = some old := by
    intro t old hold hterminal
    rw [InsertionMap.get_foldl_set_other, hold]
    intro ht
    obtain ⟨r, hr, rfl⟩ := List.mem_map.mp ht
    exact hfound.going r hr old hold hterminal
  have hended : ∀ t ∈ p.terminal, ∃ r,
      ((tasksOf p.writes).foldl (fun m r => m.set r.id r) s.records).get t = some r ∧
        r.status = .terminal := by
    intro t ht
    obtain ⟨r, hr, rfl, hterminal⟩ := hfound.terminal t ht
    exact ⟨r, InsertionMap.get_foldl_set_mem _ _ hfound.ids hr, hterminal⟩
  -- an entry is kept, or its task has ended
  have hkeep : ∀ t e, s.pending.get t = some e → (p.mark t e).dispatched = true →
      (∃ r, ((tasksOf p.writes).foldl (fun m r => m.set r.id r) s.records).get t = some r ∧
        r.status = .terminal) ∨
      ∃ e', (State.confirm s.pending p).get t = some e' ∧ e'.dispatched = true ∧
        e'.command = e.command := by
    intro t e hget hdispatched
    by_cases ht : t ∈ p.terminal
    · exact .inl (hended t ht)
    · refine .inr ⟨p.mark t e, ?_, hdispatched, rfl⟩
      rw [get_confirm, if_neg ht, hget, Option.map_some]
  constructor
  case unused =>
    intro t e' hgot hno
    rw [get_confirm] at hgot
    split at hgot
    · cases hgot
    obtain ⟨e, hget, rfl⟩ := Option.map_eq_some_iff.mp hgot
    rw [Publication.mark, Bool.or_eq_false_iff, decide_eq_false_iff_not] at hno
    obtain ⟨hcancelled, hunused⟩ := hlive.unused t e hget hno.1
    have howns := h.owned.undispatched t e hget hno.1
    constructor
    · rw [Publication.mark, Bool.or_eq_false_iff, decide_eq_false_iff_not,
        hfound.cancelling t e hget howns, hno.1]
      exact ⟨hcancelled, by simp⟩
    · rw [dispatched_snoc]
      rintro (hold | hnew)
      · exact hunused hold
      · exact hno.2 (List.mem_map_of_mem hnew)
  case kept =>
    intro t c hc
    obtain hold | hnew := dispatched_snoc.mp hc
    · obtain ⟨r, hr, hterminal⟩ | ⟨e, hget, hdispatched, rfl⟩ := hlive.kept t c hold
      · exact .inl ⟨r, hrecord t r hr hterminal, hterminal⟩
      · exact hkeep t e hget (by simp [Publication.mark, hdispatched])
    · obtain ⟨e, hget, hno⟩ := hfound.intents _ hnew
      obtain rfl := hflight.intents _ hnew e hget hno
      refine hkeep t e hget ?_
      rw [Publication.mark, Bool.or_eq_true, decide_eq_true_iff]
      exact .inr (List.mem_map_of_mem hnew)
  case noted =>
    intro t e' hgot hc
    rw [get_confirm] at hgot
    split at hgot
    · cases hgot
    obtain ⟨e, hget, rfl⟩ := Option.map_eq_some_iff.mp hgot
    have hcancelled : (p.mark t e).cancelled = true ↔
        e.cancelled = true ∨ (t, e.command.operation) ∈ p.cancelling := by
      simp [Publication.mark]
    change Dispatched (s.published ++ [p]) t e.command at hc
    change _ ↔ Noted (s.published ++ [p]) t e.command
    rw [hcancelled, noted_snoc]
    obtain hold | hnew := dispatched_snoc.mp hc
    · have howns := h.owns_dispatched hold
      have hdispatched : e.dispatched = true := by
        rw [← Bool.not_eq_false]
        exact fun hno => (hlive.unused t e hget hno).2 hold
      rw [hlive.noted t e hget hold, hfound.cancelling t e hget howns, Publication.ends,
        ← Bool.not_eq_true, hlive.noted t e hget hold]
      constructor
      · rintro (hnoted | ⟨-, haborts, hcompleted, -⟩)
        · exact .inl hnoted
        · exact .inr ⟨hold, haborts, hcompleted⟩
      · rintro (hnoted | ⟨-, haborts, hcompleted⟩)
        · exact .inl hnoted
        · by_cases hnoted : Noted s.published t e.command
          · exact .inl hnoted
          · exact .inr ⟨hdispatched, haborts, hcompleted, hnoted⟩
    · have hfirst := hflight.sound.first _ hnew e.command
      obtain ⟨e', hget', hno⟩ := hfound.intents _ hnew
      rw [hget] at hget'
      cases hget'
      rw [(hlive.unused t e hget hno).1, hfound.cancelling t e hget (howned.1 _ hnew), hno]
      constructor
      · rintro (h | ⟨h, -⟩)
        · cases h
        · cases h
      · rintro (hnoted | hends)
        · exact absurd hnoted.dispatched hfirst
        · exact absurd hends.1 hfirst
  case documents =>
    intro q hq x hx
    obtain hq | hq := List.mem_append.mp hq
    · exact List.mem_append_left _ (hlive.documents q hq x hx)
    · rw [List.mem_singleton.mp hq] at hx
      exact List.mem_append_right _ (List.mem_map_of_mem (hflight.sound.controlled x hx).1)
  case flight => simp

theorem Inv.acknowledge {t : State α σ} (h : Inv script owners s)
    (hs : act script s .acknowledge = some t) : Inv script owners t := by
  obtain ⟨p, hp, hs⟩ := bind_some hs
  cases hs
  have hflight := h.flight p hp
  have hwaits : ∀ w ∈ s.waits, ∃ q ∈ s.published ++ [p], ∃ x ∈ q.tools,
      x.1 = w.1 ∧ x.2.operation = w.2 := by
    intro w hw
    obtain ⟨q, hq, hx⟩ := h.waits w hw
    exact ⟨q, List.mem_append_left _ hq, hx⟩
  have hdocuments : ∀ op ∈ s.documents, ∃ q ∈ s.published ++ [p], ∃ x ∈ q.controls,
      x.2.operation = op := by
    intro op hop
    obtain ⟨q, hq, hx⟩ := h.documents op hop
    exact ⟨q, List.mem_append_left _ hq, hx⟩
  unfold State.acknowledge
  dsimp only
  split
  · obtain ⟨hsound, howned⟩ := h.answered hp marks_confirm
    refine ⟨hsound, ?_, hwaits, { howned with }, by simp, ?_⟩
    · intro op hop
      obtain hop | hop := List.mem_append.mp hop
      · exact hdocuments op hop
      · obtain ⟨w, hw, rfl⟩ := List.mem_map.mp hop
        exact ⟨p, List.mem_append_right _ (List.mem_singleton_self p), hflight.created w hw⟩
    · exact fun hinterrupted hclosed => h.answered_live hp (h.live hinterrupted hclosed)
  · have hpresent : ∀ t ∈ (p.intents.takeWhile fun x => (s.pending.get x.1).isSome).map Prod.fst,
        t ∈ p.intents.map Prod.fst :=
      fun t ht => ((List.takeWhile_prefix _).sublist.map _).subset ht
    obtain ⟨hsound, howned⟩ := h.answered hp (marks_dispatch hpresent)
    exact ⟨hsound, hdocuments, hwaits, { howned with }, by simp, by rintro ⟨⟩⟩

end Acknowledge

/-! ## The other steps -/

section Steps

variable {script : α → σ} {owners : Owners α σ} {s : State α σ}

theorem Inv.frame (h : Inv script owners s) {names : List String} {hooks : List (List String)}
    {handed : List Definition} {preparing : List Invocation} {recovering : List (Recovery α σ)}
    {waits : List (Nat × Nat)}
    (hrecovering : ∀ r ∈ recovering, ∀ c, r.command = some c →
      Owns owners .control r.invocation.task c)
    (hwaits : ∀ w ∈ waits, ∃ p ∈ s.published, ∃ x ∈ p.tools, x.1 = w.1 ∧ x.2.operation = w.2) :
    Inv script owners { s with names, hooks, handed, preparing, recovering, waits } where
  sound := h.sound
  documents := h.documents
  waits := hwaits
  owned := { h.owned with recovering := hrecovering }
  flight p hp := { h.flight p hp with }
  live hinterrupted hclosed :=
    let hlive := h.live hinterrupted hclosed
    { hlive with flight := fun p hp => { hlive.flight p hp with } }

theorem Inv.land (h : Inv script owners s) {interrupted : Bool}
    (hkept : interrupted = false → s.interrupted = false) :
    Inv script owners { s with inFlight := none, interrupted } where
  sound := h.sound
  documents := h.documents
  waits := h.waits
  owned := { h.owned with inFlight := by nofun }
  flight := by nofun
  live hinterrupted hclosed :=
    { h.live (hkept hinterrupted) hclosed with flight := by nofun }

theorem Inv.close (h : Inv script owners s) :
    Inv script owners { s with pending := {}, closed := true } where
  sound := h.sound
  documents := h.documents
  waits := h.waits
  owned := { h.owned with undispatched := by nofun, dispatched := by nofun }
  flight p hp := { h.flight p hp with intents := by nofun }
  live := by nofun

theorem Inv.settle (h : Inv script owners s) (operation : Nat) :
    Inv script owners { s with controls := s.controls.delete operation } where
  sound := h.sound
  documents := h.documents
  waits := h.waits
  owned :=
    { h.owned with
      controls := fun op t c hget => h.owned.controls op t c (InsertionMap.get_delete_some hget) }
  flight p hp := { h.flight p hp with }
  live hinterrupted hclosed :=
    let hlive := h.live hinterrupted hclosed
    { hlive with flight := fun p hp => { hlive.flight p hp with } }

/-- What an entry has to be that a task gets. -/
structure Enters (owners : Owners α σ) (s : State α σ) (t : Nat) (e : Pending α σ) : Prop where
  undispatched : e.dispatched = false → Owns owners .hook t e.command ∧ e.cancelled = false ∧
    ∀ p ∈ s.inFlight, t ∉ p.intents.map Prod.fst
  dispatched : e.dispatched = true → ∃ p ∈ s.published, (t, e.command) ∈ p.tools
  new : ¬Dispatched s.published t e.command
  cancelling : Owns owners .hook t e.command → e.dispatched = false ∧
    ∀ p ∈ s.inFlight, s.interrupted = false → s.closed = false →
      (t, e.command.operation) ∉ p.cancelling

theorem Inv.entries (h : Inv script owners s) {pending : Pendings α σ}
    (hget : ∀ t e', pending.get t = some e' → Enters owners s t e' ∨
      ∃ e, s.pending.get t = some e ∧ e'.command = e.command ∧ e'.dispatched = e.dispatched ∧
        e'.cancelled = e.cancelled)
    (hback : ∀ t e, s.pending.get t = some e → ∃ e', pending.get t = some e' ∧
      e'.command = e.command ∧ e'.dispatched = e.dispatched) :
    Inv script owners { s with pending } := by
  constructor
  case sound => exact h.sound
  case documents => exact h.documents
  case waits => exact h.waits
  case owned =>
    refine { h.owned with undispatched := ?_, dispatched := ?_ }
    · intro t e' he hno
      obtain hnew | ⟨e, he, hcommand, hdispatched, -⟩ := hget t e' he
      · exact (hnew.undispatched hno).1
      · rw [hcommand]
        exact h.owned.undispatched t e he (hdispatched ▸ hno)
    · intro t e' he hyes
      obtain hnew | ⟨e, he, hcommand, hdispatched, -⟩ := hget t e' he
      · exact hnew.dispatched hyes
      · rw [hcommand]
        exact h.owned.dispatched t e he (hdispatched ▸ hyes)
  case flight =>
    intro p hp
    refine { h.flight p hp with intents := ?_ }
    intro x hx e' he hno
    obtain hnew | ⟨e, he, hcommand, hdispatched, -⟩ := hget x.1 e' he
    · exact absurd (List.mem_map_of_mem hx) ((hnew.undispatched hno).2.2 p hp)
    · rw [hcommand]
      exact (h.flight p hp).intents x hx e he (hdispatched ▸ hno)
  case live =>
    intro hinterrupted hclosed
    have hlive := h.live hinterrupted hclosed
    refine { hlive with unused := ?_, kept := ?_, noted := ?_, flight := ?_ }
    · intro t e' he hno
      obtain hnew | ⟨e, he, hcommand, hdispatched, hcancelled⟩ := hget t e' he
      · exact ⟨(hnew.undispatched hno).2.1, hnew.new⟩
      · rw [hcommand, hcancelled]
        exact hlive.unused t e he (hdispatched ▸ hno)
    · intro t c hc
      obtain hended | ⟨e, he, hdispatched, rfl⟩ := hlive.kept t c hc
      · exact .inl hended
      · obtain ⟨e', he', hcommand, hsame⟩ := hback t e he
        exact .inr ⟨e', he', hsame.trans hdispatched, hcommand⟩
    · intro t e' he hc
      obtain hnew | ⟨e, he, hcommand, -, hcancelled⟩ := hget t e' he
      · exact absurd hc hnew.new
      · rw [hcommand] at hc ⊢
        rw [hcancelled]
        exact hlive.noted t e he hc
    · intro p hp
      have hfound := hlive.flight p hp
      refine { hfound with intents := ?_, cancelling := ?_ }
      · intro x hx
        obtain ⟨e, he, hno⟩ := hfound.intents x hx
        obtain ⟨e', he', -, hsame⟩ := hback x.1 e he
        exact ⟨e', he', hsame.trans hno⟩
      · intro t e' he howns
        obtain hnew | ⟨e, he, hcommand, hdispatched, hcancelled⟩ := hget t e' he
        · obtain ⟨hno, hfree⟩ := hnew.cancelling howns
          rw [hno]
          exact ⟨fun hin => absurd hin (hfree p hp hinterrupted hclosed), by nofun⟩
        · rw [hcommand] at howns ⊢
          rw [hdispatched, hcancelled]
          exact hfound.cancelling t e he howns

theorem Inv.complete (h : Inv script owners s) (task : Nat) :
    Inv script owners { s with
      pending := s.pending.update task fun e => { e with completed := true } } := by
  refine h.entries ?_ ?_
  · intro t e' hgot
    rw [InsertionMap.get_update] at hgot
    split at hgot
    · obtain ⟨e, he, rfl⟩ := Option.map_eq_some_iff.mp hgot
      exact .inr ⟨e, he, rfl, rfl, rfl⟩
    · exact .inr ⟨e', hgot, rfl, rfl, rfl⟩
  · intro t e he
    rw [InsertionMap.get_update, he]
    split
    · exact ⟨_, rfl, rfl, rfl⟩
    · exact ⟨e, rfl, rfl, rfl⟩

theorem Inv.enter (h : Inv script owners s) {t : Nat} {e : Pending α σ}
    (hnone : s.pending.get t = none) (he : Enters owners s t e) :
    Inv script owners { s with pending := s.pending.set t e } := by
  refine h.entries ?_ ?_
  · intro k e' hgot
    rw [InsertionMap.get_set] at hgot
    split at hgot
    · rename_i hkt
      cases hgot
      exact .inl (hkt ▸ he)
    · exact .inr ⟨e', hgot, rfl, rfl, rfl⟩
  · intro k e' hgot
    refine ⟨e', ?_, rfl, rfl⟩
    rw [InsertionMap.get_set_ne, hgot]
    rintro rfl
    rw [hnone] at hgot
    cases hgot

theorem Inv.draw (h : Inv script owners s) (x : Origin × Nat × Command α σ) :
    Inv script (owners ++ [x]) { s with operations := s.operations + 1 } where
  sound := h.sound
  documents := h.documents
  waits := h.waits
  owned :=
    { length := by rw [List.length_append, h.owned.length]; rfl
      undispatched := fun t e hget hno => (h.owned.undispatched t e hget hno).snoc x
      dispatched := h.owned.dispatched
      controls := fun op t c hget =>
        (h.owned.controls op t c hget).imp_right fun howns => howns.snoc x
      recovering := fun r hr c hc => (h.owned.recovering r hr c hc).snoc x
      published := fun p hp => (h.owned.published p hp).snoc x
      inFlight := fun p hp => (h.owned.inFlight p hp).snoc x }
  flight p hp := { h.flight p hp with }
  live hinterrupted hclosed :=
    let hlive := h.live hinterrupted hclosed
    { hlive with
      flight := fun p hp =>
        { hlive.flight p hp with
          cancelling := by
            intro t e hget howns
            obtain ⟨o, hold⟩ := h.owns_entry hget
            obtain ⟨rfl, -, -⟩ := (hold.snoc x).inj howns rfl
            exact (hlive.flight p hp).cancelling t e hget hold
          drawn := fun y hy => Nat.lt_succ_of_lt ((hlive.flight p hp).drawn y hy) } }

theorem Inv.prepare (h : Inv script owners s) {t : Nat} {c : Command α σ}
    (hc : c.operation = s.operations) (hnone : s.pending.get t = none)
    (hfree : ∀ p ∈ s.inFlight, t ∉ p.intents.map Prod.fst) :
    Inv script (owners ++ [(Origin.hook, t, c)])
      { s with operations := s.operations + 1, pending := s.pending.set t { command := c } } := by
  refine (h.draw (Origin.hook, t, c)).enter hnone
    ⟨fun _ => ⟨h.owned.owns_draw hc _ _, rfl, hfree⟩, by nofun, ?_, ?_⟩
  · intro hout
    have hlt := h.owned.lt (h.owns_dispatched hout)
    exact absurd hc (Nat.ne_of_lt hlt)
  · refine fun _ => ⟨rfl, fun p hp hinterrupted hclosed hin => ?_⟩
    have hlt := ((h.live hinterrupted hclosed).flight p hp).drawn _ hin
    exact absurd hc (Nat.ne_of_lt hlt)

theorem Inv.resume (h : Inv script owners s) {t : Nat} {c : Command α σ}
    (hnone : s.pending.get t = none) (howns : Owns owners .control t c)
    (hin : c.operation ∈ s.documents) :
    (∃ p ∈ s.published, (t, c) ∈ p.tools) ∧ Inv script owners
      { s with pending := s.pending.set t { command := c, dispatched := true } } := by
  obtain ⟨p, hp, x, hx, hop⟩ := h.documents _ hin
  obtain ⟨-, rfl, rfl⟩ := ((h.owned.published p hp).2 x hx).inj howns hop
  have hout : ∃ p ∈ s.published, (x.1, x.2) ∈ p.tools := ⟨p, hp, List.mem_append_right _ hx⟩
  refine ⟨hout, h.enter hnone ⟨by nofun, fun _ => hout, ?_, ?_⟩⟩
  · intro hc
    cases ((h.owns_dispatched hc).inj howns rfl).1
  · intro hhook
    cases (hhook.inj howns rfl).1

/-- A command is handed to `publishControl`. -/
theorem Inv.register (h : Inv script owners s) {t : Nat} {c : Command α σ}
    (hc : c.operation = s.operations) :
    Inv script (owners ++ [(Origin.control, t, c)])
      { s with
        operations := s.operations + 1
        controls := s.controls.set c.operation (t, c) } := by
  have hdraw := h.draw (Origin.control, t, c)
  refine
    { hdraw with
      owned := { hdraw.owned with controls := ?_ }
      flight := fun p hp => { hdraw.flight p hp with }
      live := fun hinterrupted hclosed =>
        let hlive := hdraw.live hinterrupted hclosed
        { hlive with flight := fun p hp => { hlive.flight p hp with } } }
  intro op k d hget
  rw [InsertionMap.get_set] at hget
  split at hget
  · rename_i hop
    cases hget
    exact ⟨hop.symm, h.owned.owns_draw hc _ _⟩
  · exact hdraw.owned.controls op k d hget

end Steps

/-! ## Every run -/

section Runs

variable {script : α → σ} {owners : Owners α σ} {s t : State α σ}

theorem Inv.wait (h : Inv script owners s) {task : Nat} {e : Pending α σ}
    (hout : ∃ p ∈ s.published, (task, e.command) ∈ p.tools) : Inv script owners (s.wait task e) := by
  refine h.frame h.owned.recovering fun w hw => ?_
  obtain hw | hw := List.mem_append.mp hw
  · exact h.waits w hw
  · rw [List.mem_singleton.mp hw]
    obtain ⟨p, hp, hx⟩ := hout
    exact ⟨p, hp, _, hx, rfl, rfl⟩

theorem Inv.prepared {k : Nat} {command : Command α σ} {aborted : Bool} (h : Inv script owners s)
    (hlawful : Lawful s (.prepared k command aborted))
    (hs : act script s (.prepared k command aborted) = some t) : ∃ owners, Inv script owners t := by
  obtain ⟨i, hi, hs⟩ := bind_some hs
  dsimp only at hs
  split at hs
  · cases hs
    exact ⟨_, (h.draw (.hook, i.task, command)).frame (h.draw _).owned.recovering h.waits⟩
  · rename_i hgood
    cases hs
    have hnone : s.pending.get i.task = none := by
      rw [← Option.not_isSome_iff_eq_none]
      exact fun hsome => hgood (.inr (.inr (.inr hsome)))
    have hprepare := h.prepare (c := { command with operation := s.operations }) rfl hnone
      (hlawful i hi)
    exact ⟨_, hprepare.frame hprepare.owned.recovering hprepare.waits⟩

theorem Inv.execute {d : Definition} {task : Nat} (h : Inv script owners s)
    (hs : act script s (.execute d task) = some t) : Inv script owners t := by
  obtain ⟨-, hs⟩ := guard_some hs
  split at hs
  · rename_i e hget
    split at hs
    · rename_i hdispatched
      cases hs
      exact h.wait (h.owned.dispatched task e hget hdispatched)
    · cases hs
      exact h
  · split at hs
    · cases hs
      refine h.frame (fun r hr c hc => ?_) h.waits
      obtain hr | hr := List.mem_append.mp hr
      · exact h.owned.recovering r hr c hc
      · rw [List.mem_singleton.mp hr] at hc
        cases hc
    · cases hs
      exact h

theorem Inv.publishRecovery {k : Nat} {command : Command α σ} (h : Inv script owners s)
    (hs : act script s (.publishRecovery k command) = some t) : ∃ owners, Inv script owners t := by
  obtain ⟨r, hr, hs⟩ := bind_some hs
  obtain ⟨-, hs⟩ := guard_some hs
  split at hs
  · cases hs
    have hregister := h.register (t := r.invocation.task)
      (c := { command with operation := s.operations }) rfl
    refine ⟨_, hregister.frame (fun r' hr' c hc => ?_) hregister.waits⟩
    obtain hr' | rfl := List.mem_or_eq_of_mem_set hr'
    · exact hregister.owned.recovering r' hr' c hc
    · cases hc
      exact h.owned.owns_draw rfl _ _
  · cases hs
    exact ⟨_, h.frame (h.owned.eraseIdx k) h.waits⟩

theorem Inv.recovered {k : Nat} {aborted : Bool} (h : Inv script owners s)
    (hlawful : Lawful s (.recovered k aborted))
    (hs : act script s (.recovered k aborted) = some t) : Inv script owners t := by
  obtain ⟨r, hr, hs⟩ := bind_some hs
  obtain ⟨c, hc, hs⟩ := bind_some hs
  obtain ⟨hdocument, hs⟩ := guard_some hs
  have herase : Inv script owners { s with recovering := s.recovering.eraseIdx k } :=
    h.frame (h.owned.eraseIdx k) h.waits
  dsimp only at hs
  split at hs
  · cases hs
    exact herase
  · cases hs
    obtain ⟨hout, hresume⟩ := herase.resume (hlawful r hr)
      (h.owned.recovering r (List.mem_of_getElem? hr) c hc) hdocument
    exact hresume.wait hout

theorem Inv.act {a : Action α σ} (h : Inv script owners s) (hlawful : Lawful s a)
    (hs : act script s a = some t) : ∃ owners, Inv script owners t := by
  cases a with
  | replaceDefinitions definitions =>
    cases hs
    exact ⟨_, h.frame h.owned.recovering h.waits⟩
  | beforeTool hook i =>
    obtain ⟨names, -, hs⟩ := bind_some hs
    split at hs
    · cases hs
      exact ⟨_, h.frame h.owned.recovering h.waits⟩
    · cases hs
      exact ⟨_, h⟩
  | prepared k command aborted => exact h.prepared hlawful hs
  | prepareFailed k =>
    obtain ⟨-, hs⟩ := guard_some hs
    cases hs
    exact ⟨_, h.frame h.owned.recovering h.waits⟩
  | execute d task => exact ⟨_, h.execute hs⟩
  | publishRecovery k command => exact h.publishRecovery hs
  | recovered k aborted => exact ⟨_, h.recovered hlawful hs⟩
  | recoverFailed k =>
    obtain ⟨-, hs⟩ := guard_some hs
    cases hs
    exact ⟨_, h.frame (h.owned.eraseIdx k) h.waits⟩
  | publishControl task command =>
    cases hs
    exact ⟨_, h.register (c := { command with operation := s.operations }) rfl⟩
  | controlSettled operation =>
    cases hs
    exact ⟨_, h.settle operation⟩
  | completed task =>
    cases hs
    exact ⟨_, h.complete task⟩
  | commit writes => exact ⟨_, h.commit hlawful hs⟩
  | acknowledge => exact ⟨_, h.acknowledge hs⟩
  | refuse =>
    obtain ⟨-, hs⟩ := guard_some hs
    cases hs
    exact ⟨_, h.land id⟩
  | fail =>
    obtain ⟨-, hs⟩ := guard_some hs
    cases hs
    exact ⟨_, h.land nofun⟩
  | close =>
    cases hs
    exact ⟨_, h.close⟩

theorem Inv.init (records : Records α) : Inv script [] ({ records } : State α σ) where
  sound := .nil
  documents := by nofun
  waits := by nofun
  owned :=
    { length := rfl, undispatched := by nofun, dispatched := by nofun, controls := by nofun
      recovering := by nofun, published := by nofun, inFlight := by nofun }
  flight := by nofun
  live _ _ :=
    { unused := by nofun
      kept := by rintro _ _ ⟨_, ⟨⟩, _⟩
      noted := by nofun
      documents := by nofun
      flight := by nofun }

/-- What the publications and the waits of a session are. -/
structure Handed (script : α → σ) (s : State α σ) : Prop where
  once : (operationsOf s.published).Nodup
  oncePerTask : (s.published.flatMap fun p => p.intents.map Prod.fst).Nodup
  /-- A prepared call goes out with the commit that records it as executing. -/
  recorded : ∀ p ∈ s.published, ∀ x ∈ p.intents, ∃ r ∈ tasksOf p.writes, r.id = x.1 ∧
    r.isTool = true ∧ r.abortRequested = false ∧ ∃ callId arguments, r.callId = some callId ∧
      r.checkpoint = some ⟨true, some arguments⟩ ∧ x.2.fits script (callId, arguments) = true
  /-- A control command goes out with its document, and its task was executing. -/
  controlled : ∀ p ∈ s.published, ∀ x ∈ p.controls, (x.2.operation, x.1) ∈ controlsOf p.writes ∧
    runs p.records x.1 x.2 = true
  awaited : ∀ w ∈ s.waits, ∃ p ∈ s.published, ∃ x ∈ p.tools, x.1 = w.1 ∧ x.2.operation = w.2
  cancelled : ∀ before (p : Publication α σ) after, s.published = before ++ p :: after → ∀ t c, p.ends before t c →
    ¬Noted before t c → ∀ r ∈ tasksOf p.writes, r.id = t →
      p.cancellations.filter (fun x => x.operation = c.operation) = cancellationsOf r.conversation c
  only : ∀ before (p : Publication α σ) after, s.published = before ++ p :: after → ∀ x ∈ p.cancellations,
    ∃ t c, p.ends before t c ∧ ¬Noted before t c ∧
      ∃ r ∈ tasksOf p.writes, r.id = t ∧ x ∈ cancellationsOf r.conversation c
  never : (s.published.flatMap fun p => p.cancellations.map Cancellation.operation).Nodup

theorem Sound.cancels_nodup {before : List (Publication α σ)} {p : Publication α σ}
    (h : Sound script before p) : (p.cancellations.map Cancellation.operation).Nodup := by
  rw [List.nodup_iff_count_le_one]
  intro op
  by_cases hop : op ∈ p.cancellations.map Cancellation.operation
  · obtain ⟨x, hx, rfl⟩ := List.mem_map.mp hop
    obtain ⟨t, c, hends, hnoted, r, hr, hid, hxc⟩ := h.only x hx
    have hfilter := h.cancelled t c hends hnoted r hr hid
    rw [← (mem_cancellationsOf hxc).1] at hfilter
    rw [List.count_eq_countP, List.countP_map, List.countP_eq_length_filter]
    change (p.cancellations.filter fun y => y.operation == x.operation).length ≤ 1
    have hbeq : (fun y : Cancellation => y.operation == x.operation) =
        fun y => decide (y.operation = x.operation) := by
      funext y
      rfl
    rw [hbeq, hfilter]
    unfold cancellationsOf
    split <;> simp
  · rw [List.count_eq_zero_of_not_mem hop]
    exact Nat.zero_le 1

theorem Inv.handed (h : Inv script owners s) : Handed script s where
  once := Always.nodup (h.sound.mono fun _ _ hp =>
    ⟨hp.operations, fun op hop => by
      obtain ⟨x, hx, rfl⟩ := List.mem_map.mp hop
      exact hp.fresh x hx⟩)
  oncePerTask := Always.nodup (h.sound.mono fun before p hp =>
    ⟨hp.tasks, fun t ht hin => by
      obtain ⟨x, hx, rfl⟩ := List.mem_map.mp ht
      obtain ⟨q, hq, hin⟩ := List.mem_flatMap.mp hin
      obtain ⟨y, hy, heq⟩ := List.mem_map.mp hin
      exact hp.first x hx y.2 ⟨q, hq, heq ▸ hy⟩⟩)
  recorded p hp := (h.sound_of_mem hp).elim fun _ hsound => hsound.recorded
  controlled p hp := (h.sound_of_mem hp).elim fun _ hsound => hsound.controlled
  awaited := h.waits
  cancelled before p after heq := (h.sound before p after heq).cancelled
  only before p after heq := (h.sound before p after heq).only
  never := by
    refine Always.nodup fun before p after heq => ?_
    have hsound := h.sound before p after heq
    refine ⟨hsound.cancels_nodup, fun op hop hin => ?_⟩
    obtain ⟨x, hx, rfl⟩ := List.mem_map.mp hop
    obtain ⟨q, hq, hin⟩ := List.mem_flatMap.mp hin
    obtain ⟨y, hy, hxy⟩ := List.mem_map.mp hin
    obtain ⟨first, second, rfl⟩ := List.append_of_mem hq
    have hpast : s.published = first ++ q :: (second ++ p :: after) := by simp [heq]
    obtain ⟨t, c, hends, hnoted, r, -, -, hxc⟩ := hsound.only x hx
    obtain ⟨t', c', hends', -, r', -, -, hyc⟩ := (h.sound first q _ hpast).only y hy
    -- the two cancel one command, and the second was noted by the first
    have hout {ps rest : List (Publication α σ)} {k : Nat} {d : Command α σ}
        (hps : s.published = ps ++ rest) (hd : Dispatched ps k d) : Owns owners .hook k d := by
      obtain ⟨u, hu, hd⟩ := hd
      exact h.owns_dispatched ⟨u, hps ▸ List.mem_append_left _ hu, hd⟩
    have hop : c'.operation = c.operation := by
      rw [← (mem_cancellationsOf hxc).1, ← (mem_cancellationsOf hyc).1]
      exact hxy
    obtain ⟨-, rfl, rfl⟩ := (hout hpast hends'.1).inj (hout heq hends.1) hop
    exact hnoted ⟨first, q, second, rfl, hends'⟩

/-- In every run of a session, whatever is prepared, refused, aborted, recovered or closed in between.
A commit that cannot be prepared, or that is refused, leaves all of this as it was. -/
theorem tools_handed_over {as : List (Action α σ)} (h : Reach ((session script).guard Lawful) as s) :
    Handed script s ∧ (∀ t, act script s .refuse = some t → t = { s with inFlight := none }) ∧
      ∀ writes t, act script s (.commit writes) = some t →
        t = s ∨ ∃ p, t = { s with inFlight := some p } := by
  obtain ⟨owners, hinv⟩ := h.invariant (fun s => ∃ owners, Inv script owners s)
    (by rintro _ ⟨records, rfl⟩; exact ⟨[], .init records⟩)
    (by rintro _ _ _ ⟨owners, hi⟩ ⟨hlawful, hs⟩; exact hi.act hlawful hs)
  refine ⟨hinv.handed, ?_, ?_⟩
  · intro t hs
    obtain ⟨-, hs⟩ := guard_some hs
    exact (Option.some.inj hs).symm
  · intro writes t hs
    obtain ⟨-, hs⟩ := guard_some hs
    obtain ⟨-, hs⟩ := guard_some hs
    split at hs
    · exact .inl (Option.some.inj hs).symm
    · rename_i p _
      exact .inr ⟨p, (Option.some.inj hs).symm⟩

def writtenCall (execute abort : Bool) (status : Status) : Write String :=
  .task ⟨1, 7, true, abort, status, some 3, some ⟨execute, some "ls"⟩⟩

/-- A call is prepared, refused once, handed over, aborted, and ends. -/
def oneCall : List (Action String String) :=
  [.replaceDefinitions [⟨"bash", false⟩], .beforeTool 0 ⟨1, "bash"⟩,
    .prepared 0 ⟨0, 1, 3, "bash", 5, .toolExecute "ls"⟩ false,
    .commit [writtenCall true false .running], .refuse,
    .commit [writtenCall true false .running], .acknowledge, .execute ⟨"bash", false⟩ 1,
    .commit [writtenCall true true .running], .acknowledge,
    .commit [writtenCall true true .terminal], .acknowledge]

instance (s : State String String) (a : Action String String) : Decidable (Lawful s a) := by
  unfold Lawful
  cases a <;> infer_instance

theorem lawful_reach (records : Records String) {as : List (Action String String)}
    {s : State String String} (hs : as.foldlM (guarded (act id) Lawful) { records } = some s) :
    Reach ((session id).guard Lawful) as s :=
  Reach.guarded (S := session id) (fun _ _ _ h => h) ⟨records, rfl⟩ hs

theorem tools_handed_over_once : ∃ s, Reach ((session id).guard Lawful) oneCall s ∧ Handed id s ∧
    s.published.map (fun p => p.cancellations.map Cancellation.operation) = [[], [0], []] := by
  obtain ⟨s, hs⟩ : ∃ s, oneCall.foldlM (guarded (act id) Lawful) {} = some s := ⟨_, rfl⟩
  have hrun := lawful_reach {} hs
  refine ⟨s, hrun, (tools_handed_over hrun).1, ?_⟩
  have hlog : (oneCall.foldlM (guarded (act id) Lawful) {}).map
      (fun s => s.published.map fun p => p.cancellations.map Cancellation.operation) =
        some [[], [0], []] := by decide +kernel
  rw [hs] at hlog
  exact Option.some.inj hlog

/-- A call that was recorded as executing by an earlier session, and whose tool may be replayed. -/
def oneRecovery : List (Action String String) :=
  [.replaceDefinitions [⟨"plan", true⟩], .execute ⟨"plan", true⟩ 1,
    .publishRecovery 0 ⟨0, 1, 3, "plan", 5, .control 7 "ls" true⟩,
    .commit [.control 0 1], .acknowledge, .recovered 0 false]

/-- A recovered command goes out with the commit of its document, which says nothing of the task. -/
theorem recovery_unrecorded : ∃ s, Reach ((session id).guard Lawful) oneRecovery s ∧
    s.waits = [(1, 0)] ∧ ∃ p ∈ s.published, ∃ x ∈ p.tools, x.1 = 1 ∧ tasksOf p.writes = [] := by
  have hs : ∃ s, oneRecovery.foldlM (guarded (act id) Lawful)
      { records := InsertionMap.set {} 1
          ⟨1, 7, true, false, .running, some 3, some ⟨true, some "ls"⟩⟩ } = some s ∧
      s.waits = [(1, 0)] ∧ ∃ p ∈ s.published, ∃ x ∈ p.tools, x.1 = 1 ∧ tasksOf p.writes = [] :=
    ⟨_, rfl, rfl, _, List.mem_cons_self, _, List.mem_cons_self, rfl, rfl⟩
  obtain ⟨s, hs, hrest⟩ := hs
  exact ⟨s, lawful_reach _ hs, hrest⟩

end Runs

end Remote
end Supervisor
end PiCloud
