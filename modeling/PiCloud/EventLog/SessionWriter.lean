import PiCloud.EventLog.PublicationWriter

/-!
# EventLog.SessionWriter

`KafkaSessionWriter` of `kafka-session-writer.ts`: the producer of one session incarnation, which
has one initialization and ends with its first failure.

* `SessionWriter.act`: a call, an answer of the broker, or a turn of the writer itself.
* `Quiet.run`: a writer that has failed, or was closed with nothing in hand, sends nothing.
* `publication_writers`: what the two writers send, and that the first answers every call.
-/

namespace PiCloud
namespace EventLog

open Lib

/-- `#open` -/
inductive Opening where
  | unopened | beforeInit | connecting | initializing | afterInit | disposing | failing
  | opened | refused
deriving DecidableEq

/-- The append at the head of `#tail`. -/
inductive Flight where
  /-- the surrounding transaction has not called `send` -/
  | entering (request : Append)
  | beginning (request : Append)
  | committing (request : Append)
  | aborting (request : Append)
deriving DecidableEq

inductive SessionClosing where
  | opening | tail | disconnecting | done
deriving DecidableEq

structure SessionWriter where
  producer : Bool := false
  opening : Opening := .unopened
  failed : Bool := false
  closed : Bool := false
  closing : Option SessionClosing := none
  /-- appends that wait for those before them -/
  tail : List Append := []
  flight : Option Flight := none
  calls : Nat := 0
  admitted : List Append := []
  sent : List Append := []
  settled : List (Nat × Answer) := []
deriving DecidableEq

inductive SessionAction where
  | start (current : Bool)
  | append (record : KafkaPublicationRecord) (current : Bool)
  | close
  | authorizedBefore (ok current : Bool)
  | connected (ok : Bool)
  | initialized (ok : Bool)
  | authorizedAfter (ok current : Bool)
  | disposed
  | openFailed
  | run (current : Bool)
  | entered (ok : Bool)
  /-- `produced` is false when `produce` throws -/
  | begun (ok produced : Bool)
  | committed (ok : Bool)
  | aborted
  | closeOpened
  | closeTail
  | closeDisconnected
deriving DecidableEq

namespace SessionWriter

def settle (s : SessionWriter) (requests : List Append) (answer : Answer) : SessionWriter :=
  { s with settled := s.settled ++ Outbox.answered requests answer }

def start (s : SessionWriter) (current : Bool) : SessionWriter :=
  if s.closed = true ∨ s.opening ≠ .unopened then s
  else { s with opening := if current then .beforeInit else .failing }

def authorizedBefore (s : SessionWriter) (ok current : Bool) : SessionWriter :=
  if ok = false ∨ s.closed = true ∨ current = false then { s with opening := .failing }
  else { s with opening := .connecting }

def authorizedAfter (s : SessionWriter) (ok current : Bool) : SessionWriter :=
  if ok = false ∨ s.closed = true ∨ current = false then { s with opening := .disposing }
  else { s with producer := true, opening := .opened }

def append (s : SessionWriter) (record : KafkaPublicationRecord) (current : Bool) : SessionWriter :=
  let request : Append := ⟨s.calls, record⟩
  let s := { s with calls := s.calls + 1 }
  if s.closed = true ∨ s.failed = true ∨ s.producer = false ∨ current = false then
    s.settle [request] .notSent
  else { s with tail := s.tail ++ [request], admitted := s.admitted ++ [request] }

/-- The callback of `#tail.then`, up to the transaction. -/
def run (s : SessionWriter) (request : Append) (current : Bool) : SessionWriter :=
  if s.failed = true ∨ s.closed = true ∨ current = false then s.settle [request] .notSent
  else { s with flight := some (.entering request) }

/-- The `catch` of `append`, up to the end of the abort. -/
def fail (s : SessionWriter) (request : Append) : SessionWriter :=
  { s with failed := true, flight := some (.aborting request) }

def begun (s : SessionWriter) (request : Append) (ok produced : Bool) : SessionWriter :=
  if ok = false ∨ produced = false then s.fail request
  else { s with sent := s.sent ++ [request], flight := some (.committing request) }

def committed (s : SessionWriter) (request : Append) (ok : Bool) : SessionWriter :=
  if ok then { s with flight := none }.settle [request] .durable else s.fail request

def close (s : SessionWriter) : SessionWriter :=
  if s.closing ≠ none then s else { s with closed := true, closing := some .opening }

def closeTail (s : SessionWriter) : SessionWriter :=
  if s.producer then { s with producer := false, closing := some .disconnecting }
  else { s with closing := some .done }

def act (s : SessionWriter) : SessionAction → Option SessionWriter
  | .start current => some (s.start current)
  | .append record current => some (s.append record current)
  | .close => some s.close
  | .authorizedBefore ok current =>
    if s.opening = .beforeInit then some (s.authorizedBefore ok current) else none
  | .connected ok =>
    if s.opening = .connecting then
      some { s with opening := if ok then .initializing else .disposing }
    else none
  | .initialized ok =>
    if s.opening = .initializing then
      some { s with opening := if ok then .afterInit else .disposing }
    else none
  | .authorizedAfter ok current =>
    if s.opening = .afterInit then some (s.authorizedAfter ok current) else none
  | .disposed => if s.opening = .disposing then some { s with opening := .failing } else none
  | .openFailed =>
    if s.opening = .failing then some { s with opening := .refused, failed := true } else none
  | .run current =>
    match s.flight, s.tail with
    | none, request :: tail => some ({ s with tail }.run request current)
    | _, _ => none
  | .entered ok =>
    match s.flight with
    | some (.entering request) =>
      if ok then some { s with flight := some (.beginning request) } else some (s.fail request)
    | _ => none
  | .begun ok produced =>
    match s.flight with
    | some (.beginning request) => some (s.begun request ok produced)
    | _ => none
  | .committed ok =>
    match s.flight with
    | some (.committing request) => some (s.committed request ok)
    | _ => none
  | .aborted =>
    match s.flight with
    | some (.aborting request) => some ({ s with flight := none }.settle [request] .failed)
    | _ => none
  | .closeOpened =>
    if s.closing = some .opening ∧
        (s.opening = .unopened ∨ s.opening = .opened ∨ s.opening = .refused) then
      some { s with closing := some .tail }
    else none
  | .closeTail =>
    if s.closing = some .tail ∧ s.tail = [] ∧ s.flight = none then some s.closeTail else none
  | .closeDisconnected =>
    if s.closing = some .disconnecting then some { s with closing := some .done } else none

def system : System SessionWriter SessionAction where
  init s := s = {}
  step s a t := s.act a = some t

end SessionWriter

/-! ## The queue of the writer -/

def Flight.held : Flight → List Append
  | .entering request | .beginning request | .committing request | .aborting request => [request]

def Flight.unsent : Flight → List Append
  | .entering request | .beginning request => [request]
  | _ => []

namespace SessionWriter

open Outbox (Move Moves)

def held (s : SessionWriter) : List Append := (s.flight.map Flight.held).getD []

def unsent (s : SessionWriter) : List Append := (s.flight.map Flight.unsent).getD []

def outbox (s : SessionWriter) : Outbox KafkaPublicationRecord Answer where
  issued := s.calls
  waiting := []
  queue := s.tail
  held := s.held
  unsent := s.unsent
  admitted := s.admitted
  sent := s.sent
  answers := s.settled

/-- An append runs only on an initialized producer, and none after a failure. -/
structure Shape (s : SessionWriter) : Prop where
  opened : s.opening ≠ .opened → s.producer = false ∧ s.tail = [] ∧ s.flight = none
  failed : s.failed = true → s.unsent = []
  closing : s.closing ≠ none → s.closed = true
  done : s.closing = some .disconnecting ∨ s.closing = some .done →
    s.tail = [] ∧ s.flight = none

/-- What one action does with the records: it leaves them, takes the next append into hand, drops
the one in hand, or sends it. -/
inductive Effect (s t : SessionWriter) : Prop where
  | keep : t.sent = s.sent → t.unsent = s.unsent → Effect s t
  | take : t.sent = s.sent → s.failed = false → s.closed = false → Effect s t
  | drop : t.sent = s.sent → t.unsent = [] → Effect s t
  | send (request : Append) : s.unsent = [request] → t.sent = s.sent ++ [request] →
    t.unsent = [] → Effect s t

theorem Shape.opening {s t : SessionWriter} (h : Shape s) (hopen : s.opening ≠ .opened)
    (hfailed : t.unsent = s.unsent)
    (ht : (t.producer, t.tail, t.flight, t.closing, t.closed) =
      (s.producer, s.tail, s.flight, s.closing, s.closed)) : Shape t := by
  simp only [Prod.mk.injEq] at ht
  obtain ⟨h1, h2, h3, h4, h5⟩ := ht
  obtain ⟨hproducer, htail, hflight⟩ := h.opened hopen
  refine ⟨fun _ => ⟨by rw [h1, hproducer], by rw [h2, htail], by rw [h3, hflight]⟩, ?_, ?_, ?_⟩
  · intro _
    rw [hfailed, unsent, hflight]
    rfl
  · rw [h4, h5]
    exact h.closing
  · rw [h2, h3, h4]
    exact h.done

theorem act_opening {s t : SessionWriter} (h : Shape s) (hopen : s.opening ≠ .opened)
    (ht : (t.producer, t.tail, t.flight, t.closing, t.closed, t.calls, t.admitted, t.sent, t.settled) =
      (s.producer, s.tail, s.flight, s.closing, s.closed, s.calls, s.admitted, s.sent, s.settled)) :
    Shape t ∧ Moves s.outbox t.outbox ∧ Effect s t := by
  simp only [Prod.mk.injEq] at ht
  obtain ⟨h1, h2, h3, h4, h5, h6, h7, h8, h9⟩ := ht
  have hunsent : t.unsent = s.unsent := by rw [unsent, h3, unsent]
  have houtbox : t.outbox = s.outbox := by
    simp only [outbox, held, unsent, h2, h3, h6, h7, h8, h9]
  refine ⟨h.opening hopen hunsent (by rw [h1, h2, h3, h4, h5]), ?_, .keep h8 hunsent⟩
  rw [houtbox]

theorem act_fail {s : SessionWriter} (h : Shape s) (request : Append)
    (hs : s.held = [request]) :
    Shape (s.fail request) ∧ Moves s.outbox (s.fail request).outbox ∧ Effect s (s.fail request) := by
  have hflight : s.flight ≠ none := by
    intro hnone
    simp [held, hnone] at hs
  have hunsent : (s.fail request).unsent = [] := rfl
  refine ⟨⟨?_, fun _ => hunsent, h.closing, ?_⟩, ?_, .drop rfl hunsent⟩
  · intro hopen
    exact absurd (h.opened hopen).2.2 hflight
  · intro hdone
    exact absurd (h.done hdone).2 hflight
  · have hmove := Move.send s.outbox 0
    simp only [List.take_zero, List.append_nil, outbox, hs] at hmove
    simp only [outbox, hs]
    exact .single hmove

theorem shape_flight {s : SessionWriter} (h : Shape s) (hs : s.flight ≠ none)
    {t : SessionWriter} (hfailed : t.failed = true → t.unsent = [])
    (ht : (t.opening, t.closing, t.closed) = (s.opening, s.closing, s.closed)) : Shape t := by
  simp only [Prod.mk.injEq] at ht
  obtain ⟨h1, h2, h3⟩ := ht
  refine ⟨?_, hfailed, ?_, ?_⟩
  · rw [h1]
    intro hopen
    exact absurd (h.opened hopen).2.2 hs
  · rw [h2, h3]
    exact h.closing
  · rw [h2]
    intro hdone
    exact absurd (h.done hdone).2 hs

theorem act_spec {s t : SessionWriter} {a : SessionAction} (h : Shape s)
    (hact : s.act a = some t) : Shape t ∧ Moves s.outbox t.outbox ∧ Effect s t := by
  cases a with
  | start current =>
    cases hact
    unfold start
    split
    · exact ⟨h, .refl, .keep rfl rfl⟩
    · rename_i hno
      refine act_opening h ?_ rfl
      intro hopen
      exact hno (.inr (by rw [hopen]; nofun))
  | append record current =>
    cases hact
    simp only [append]
    split
    · exact ⟨⟨h.opened, h.failed, h.closing, h.done⟩,
        .single (Move.refuseCall s.outbox .notSent), .keep rfl rfl⟩
    · rename_i hyes
      simp only [not_or, Bool.not_eq_true, Bool.not_eq_false] at hyes
      obtain ⟨hclosed, hfailed, hproducer, -⟩ := hyes
      refine ⟨⟨?_, h.failed, h.closing, ?_⟩, .single (Move.queueCall s.outbox record),
        .keep rfl rfl⟩
      · intro hopen
        rw [(h.opened hopen).1] at hproducer
        cases hproducer
      · intro hdone
        have hclosing : s.closing ≠ none := by
          rcases hdone with hd | hd <;> · simp only at hd; rw [hd]; nofun
        rw [h.closing hclosing] at hclosed
        cases hclosed
  | close =>
    cases hact
    unfold close
    split
    · exact ⟨h, .refl, .keep rfl rfl⟩
    · refine ⟨⟨h.opened, h.failed, fun _ => rfl, ?_⟩, .refl, .keep rfl rfl⟩
      intro hdone
      rcases hdone with hd | hd <;> cases hd
  | authorizedBefore ok current =>
    obtain ⟨hs, rfl⟩ := ite_some hact
    unfold authorizedBefore
    split <;> exact act_opening h (by rw [hs]; nofun) rfl
  | connected ok =>
    obtain ⟨hs, rfl⟩ := ite_some hact
    exact act_opening h (by rw [hs]; nofun) rfl
  | initialized ok =>
    obtain ⟨hs, rfl⟩ := ite_some hact
    exact act_opening h (by rw [hs]; nofun) rfl
  | authorizedAfter ok current =>
    obtain ⟨hs, rfl⟩ := ite_some hact
    have hopen : s.opening ≠ .opened := by rw [hs]; nofun
    unfold authorizedAfter
    split
    · exact act_opening h hopen rfl
    · exact ⟨⟨nofun, h.failed, h.closing, h.done⟩, .refl, .keep rfl rfl⟩
  | disposed =>
    obtain ⟨hs, rfl⟩ := ite_some hact
    exact act_opening h (by rw [hs]; nofun) rfl
  | openFailed =>
    obtain ⟨hs, rfl⟩ := ite_some hact
    exact act_opening h (by rw [hs]; nofun) rfl
  | run current =>
    simp only [act] at hact
    split at hact
    · rename_i request tail hflight htail
      cases hact
      have hheld : s.outbox.held = [] := by simp [outbox, held, hflight]
      have hunsent : s.outbox.unsent = [] := by simp [outbox, unsent, hflight]
      have hopen : s.opening = .opened := by
        by_contra hno
        have hnil := (h.opened hno).2.1
        rw [htail] at hnil
        cases hnil
      have hdone : s.closing ≠ some .disconnecting ∧ s.closing ≠ some .done := by
        refine ⟨?_, ?_⟩
        · intro hd
          have hnil := (h.done (.inl hd)).1
          rw [htail] at hnil
          cases hnil
        · intro hd
          have hnil := (h.done (.inr hd)).1
          rw [htail] at hnil
          cases hnil
      have htake := Move.take s.outbox 1 hheld hunsent
      have hdrop : s.outbox.queue.drop 1 = tail := by simp [outbox, htail]
      have hone : s.outbox.queue.take 1 = [request] := by simp [outbox, htail]
      rw [hdrop, hone] at htake
      unfold run
      split
      · refine ⟨⟨?_, ?_, h.closing, ?_⟩, ?_, .keep rfl rfl⟩
        · intro hno
          exact absurd hopen hno
        · intro _
          simp [unsent, settle, hflight]
        · intro hd
          rcases hd with hd | hd
          · exact absurd hd hdone.1
          · exact absurd hd hdone.2
        · have hanswer := (Relation.ReflTransGen.single htake).tail (Move.answer _ .notSent)
          simp only [outbox, settle, held, unsent, hflight] at hanswer ⊢
          exact hanswer
      · rename_i hyes
        simp only [not_or, Bool.not_eq_true] at hyes
        refine ⟨⟨?_, ?_, h.closing, ?_⟩, .single htake, .take rfl hyes.1 hyes.2.1⟩
        · intro hno
          exact absurd hopen hno
        · intro hfailed
          simp only [hyes.1] at hfailed
          cases hfailed
        · intro hd
          rcases hd with hd | hd
          · exact absurd hd hdone.1
          · exact absurd hd hdone.2
    · cases hact
  | entered ok =>
    simp only [act] at hact
    split at hact
    · rename_i request hs
      split at hact
      · cases hact
        have hunsent : s.unsent = [request] := by simp [unsent, hs, Flight.unsent]
        refine ⟨shape_flight h (by simp [hs]) ?_ rfl, ?_, .keep rfl ?_⟩
        · intro hfailed
          have hnil := h.failed hfailed
          rw [hunsent] at hnil
          cases hnil
        · simp only [outbox, held, unsent, hs]
          exact .refl
        · simp only [unsent, hs]
          rfl
      · cases hact
        exact act_fail h request (by simp [held, hs, Flight.held])
    · cases hact
  | begun ok produced =>
    simp only [act] at hact
    split at hact
    · rename_i request hs
      cases hact
      have hheld : s.held = [request] := by simp [held, hs, Flight.held]
      have hunsent : s.unsent = [request] := by simp [unsent, hs, Flight.unsent]
      unfold begun
      split
      · exact act_fail h request hheld
      · refine ⟨shape_flight h (by simp [hs]) (fun _ => rfl) rfl, ?_, .send request hunsent rfl rfl⟩
        have hmove := Move.send s.outbox 1
        simp only [outbox, hheld, hunsent, List.take_succ_cons, List.take_zero] at hmove
        simp only [outbox, hheld, hunsent]
        exact .single hmove
    · cases hact
  | committed ok =>
    simp only [act] at hact
    split at hact
    · rename_i request hs
      cases hact
      have hheld : s.held = [request] := by simp [held, hs, Flight.held]
      unfold committed
      split
      · refine ⟨shape_flight h (by simp [hs]) (fun _ => rfl) rfl, ?_, .drop rfl rfl⟩
        have hmove := Move.answer s.outbox .durable
        simp only [outbox, hheld] at hmove
        simp only [outbox, hheld]
        exact .single hmove
      · exact act_fail h request hheld
    · cases hact
  | aborted =>
    simp only [act] at hact
    split at hact
    · rename_i request hs
      cases hact
      have hheld : s.held = [request] := by simp [held, hs, Flight.held]
      refine ⟨shape_flight h (by simp [hs]) (fun _ => rfl) rfl, ?_, .drop rfl rfl⟩
      have hmove := Move.answer s.outbox .failed
      simp only [outbox, hheld] at hmove
      simp only [outbox, hheld]
      exact .single hmove
    · cases hact
  | closeOpened =>
    obtain ⟨hs, rfl⟩ := ite_some hact
    refine ⟨⟨h.opened, h.failed, fun _ => h.closing (by rw [hs.1]; nofun), ?_⟩, .refl,
      .keep rfl rfl⟩
    intro hdone
    rcases hdone with hd | hd <;> cases hd
  | closeTail =>
    simp only [act] at hact
    split at hact
    · rename_i hs
      obtain ⟨hclosing, htail, hflight⟩ := hs
      have hclosed := h.closing (by rw [hclosing]; nofun)
      cases hact
      unfold closeTail
      split
      · exact ⟨⟨fun _ => ⟨rfl, htail, hflight⟩, h.failed, fun _ => hclosed,
          fun _ => ⟨htail, hflight⟩⟩, .refl, .keep rfl rfl⟩
      · exact ⟨⟨h.opened, h.failed, fun _ => hclosed, fun _ => ⟨htail, hflight⟩⟩, .refl,
          .keep rfl rfl⟩
    · cases hact
  | closeDisconnected =>
    simp only [act] at hact
    split at hact
    · rename_i hs
      have hclosed := h.closing (by rw [hs]; nofun)
      cases hact
      exact ⟨⟨h.opened, h.failed, fun _ => hclosed, fun _ => h.done (.inl hs)⟩, .refl,
        .keep rfl rfl⟩
    · cases hact

/-! ## Runs -/

theorem act_latched {s t : SessionWriter} {a : SessionAction} (hact : s.act a = some t) :
    (s.failed = true → t.failed = true) ∧ (s.closed = true → t.closed = true) := by
  cases a <;> simp only [act] at hact
  case start current =>
    cases hact
    unfold start
    split <;> exact ⟨id, id⟩
  case append record current =>
    cases hact
    simp only [append]
    split <;> exact ⟨id, id⟩
  case close =>
    cases hact
    unfold close
    split
    · exact ⟨id, id⟩
    · exact ⟨id, fun _ => rfl⟩
  case openFailed =>
    obtain ⟨-, rfl⟩ := ite_some hact
    exact ⟨fun _ => rfl, id⟩
  case authorizedBefore ok current =>
    obtain ⟨-, rfl⟩ := ite_some hact
    unfold authorizedBefore
    split <;> exact ⟨id, id⟩
  case authorizedAfter ok current =>
    obtain ⟨-, rfl⟩ := ite_some hact
    unfold authorizedAfter
    split <;> exact ⟨id, id⟩
  case run current =>
    split at hact
    · cases hact
      unfold run
      split <;> exact ⟨id, id⟩
    · cases hact
  case entered ok =>
    split at hact
    · split at hact
      · cases hact
        exact ⟨id, id⟩
      · cases hact
        exact ⟨fun _ => rfl, id⟩
    · cases hact
  case begun ok produced =>
    split at hact
    · cases hact
      unfold begun
      split
      · exact ⟨fun _ => rfl, id⟩
      · exact ⟨id, id⟩
    · cases hact
  case committed ok =>
    split at hact
    · cases hact
      unfold committed
      split
      · exact ⟨id, id⟩
      · exact ⟨fun _ => rfl, id⟩
    · cases hact
  case closeTail =>
    obtain ⟨-, rfl⟩ := ite_some hact
    unfold closeTail
    split <;> exact ⟨id, id⟩
  all_goals
    split at hact
    · cases hact
      exact ⟨id, id⟩
    · cases hact

def Quiet (s : SessionWriter) : Prop := (s.failed = true ∨ s.closed = true) ∧ s.unsent = []

theorem Quiet.step {s t : SessionWriter} {a : SessionAction} (hs : Quiet s) (h : Shape s)
    (hact : s.act a = some t) : Quiet t ∧ t.sent = s.sent := by
  obtain ⟨hlatch, hunsent⟩ := hs
  obtain ⟨hfailed, hclosed⟩ := act_latched hact
  have hlatch' : t.failed = true ∨ t.closed = true := hlatch.imp hfailed hclosed
  cases (act_spec h hact).2.2 with
  | keep hsent hkeep => exact ⟨⟨hlatch', hkeep.trans hunsent⟩, hsent⟩
  | take hsent hf hc =>
    rcases hlatch with hl | hl
    · rw [hf] at hl
      cases hl
    · rw [hc] at hl
      cases hl
  | drop hsent hdrop => exact ⟨⟨hlatch', hdrop⟩, hsent⟩
  | send request hone hsent hdrop =>
    rw [hunsent] at hone
    cases hone

theorem Quiet.run {s t : SessionWriter} (hs : Quiet s) (h : Shape s) (as : List SessionAction)
    (hrun : as.foldlM act s = some t) : t.sent = s.sent := by
  induction as generalizing s with
  | nil =>
    cases hrun
    rfl
  | cons a as ih =>
    obtain ⟨u, hu, hrun⟩ := Option.bind_eq_some_iff.mp hrun
    obtain ⟨hquiet, hsent⟩ := hs.step h hu
    rw [ih hquiet (act_spec h hu).1 hrun, hsent]

theorem closed_run {s t : SessionWriter} (hclosed : s.closed = true) (h : Shape s)
    (as : List SessionAction) (hrun : as.foldlM act s = some t) :
    t.sent = s.sent ∨ ∃ request, s.unsent = [request] ∧ t.sent = s.sent ++ [request] := by
  induction as generalizing s with
  | nil =>
    cases hrun
    exact .inl rfl
  | cons a as ih =>
    obtain ⟨u, hu, hrun⟩ := Option.bind_eq_some_iff.mp hrun
    obtain ⟨hshape, -, heffect⟩ := act_spec h hu
    have hclosed' := (act_latched hu).2 hclosed
    cases heffect with
    | keep hsent hkeep =>
      have hnext := ih hclosed' hshape hrun
      rwa [hsent, hkeep] at hnext
    | take hsent hf hc =>
      rw [hc] at hclosed
      cases hclosed
    | drop hsent hdrop =>
      left
      rw [Quiet.run ⟨.inr hclosed', hdrop⟩ hshape as hrun, hsent]
    | send request hone hsent hdrop =>
      right
      refine ⟨request, hone, ?_⟩
      rw [Quiet.run ⟨.inr hclosed', hdrop⟩ hshape as hrun, hsent]

theorem shape_init : Shape {} where
  opened _ := ⟨rfl, rfl, rfl⟩
  failed _ := rfl
  closing hclosing := absurd rfl hclosing
  done _ := ⟨rfl, rfl⟩

theorem outbox_init : Outbox.Inv ({} : SessionWriter).outbox where
  calls _ := rfl
  admitted _ := Nat.le_refl _
  order := List.Sublist.refl _

theorem reach_inv {as : List SessionAction} {s : SessionWriter} (h : Reach system as s) :
    Shape s ∧ Outbox.Inv s.outbox := by
  refine h.invariant (fun s => Shape s ∧ Outbox.Inv s.outbox) ?_ ?_
  · intro s hs
    cases hs
    exact ⟨shape_init, outbox_init⟩
  · intro s a t hs hstep
    obtain ⟨hshape, hmoves, -⟩ := act_spec hs.1 hstep
    exact ⟨hshape, hs.2.moves hmoves⟩

end SessionWriter

/-- In every run of the publication writer no call is answered twice, the transactions take the
requests in the order of their admission and each at most once, whatever became of its
transaction, and while a call has no answer there is a turn that does not need another call, of
which at most `potential` follow each other. The session writer sends in that order too, each
append at most once; after its first failure it sends nothing, after a close at most the append it
had in hand, and nothing once the close is done. -/
theorem publication_writers :
    (∀ (as : List WriterAction) (s : PublicationWriter), Reach PublicationWriter.system as s →
      (s.settled.map Prod.fst).Nodup ∧
      s.transactions.flatten.Sublist s.admitted ∧
      (Outbox.numbers s.transactions.flatten).Nodup ∧
      (∀ n < s.calls, n ∉ s.settled.map Prod.fst →
        ∃ a : WriterAction, a.isCall = false ∧ (s.act a).isSome = true) ∧
      ∀ (bs : List WriterAction) (t : PublicationWriter), (∀ b ∈ bs, b.isCall = false) →
        bs.foldlM PublicationWriter.act s = some t → bs.length ≤ s.potential) ∧
    ∀ (as : List SessionAction) (s : SessionWriter), Reach SessionWriter.system as s →
      s.sent.Sublist s.admitted ∧
      (Outbox.numbers s.sent).Nodup ∧
      ∀ (bs : List SessionAction) (t : SessionWriter), bs.foldlM SessionWriter.act s = some t →
        (s.failed = true → t.sent = s.sent) ∧
        (s.closed = true →
          t.sent = s.sent ∨ ∃ request, s.unsent = [request] ∧ t.sent = s.sent ++ [request]) ∧
        (s.closing = some .done → t.sent = s.sent) := by
  constructor
  · intro as s hs
    obtain ⟨hwake, hinv⟩ := PublicationWriter.reach_inv hs
    refine ⟨hinv.answered_once, hinv.sent_sublist, hinv.sent_once, ?_, ?_⟩
    · intro n hn hno
      refine PublicationWriter.unanswered_turn hwake ?_
      intro hnil
      have hanswered := (hinv.answered_iff hn).mpr (by rw [hnil]; nofun)
      exact hno hanswered
    · intro bs t hbs hrun
      have hle := (PublicationWriter.turns_bound hwake bs hbs hrun).2
      omega
  · intro as s hs
    obtain ⟨hshape, hinv⟩ := SessionWriter.reach_inv hs
    refine ⟨hinv.sent_sublist, hinv.sent_once, ?_⟩
    intro bs t hrun
    refine ⟨?_, ?_, ?_⟩
    · intro hfailed
      exact SessionWriter.Quiet.run ⟨.inl hfailed, hshape.failed hfailed⟩ hshape bs hrun
    · intro hclosed
      exact SessionWriter.closed_run hclosed hshape bs hrun
    · intro hdone
      have hclosed := hshape.closing (by rw [hdone]; nofun)
      have hflight := (hshape.done (.inr hdone)).2
      refine SessionWriter.Quiet.run ⟨.inr hclosed, ?_⟩ hshape bs hrun
      simp [SessionWriter.unsent, hflight]

def closingRun : List SessionAction :=
  [.start true, .authorizedBefore true true, .connected true, .initialized true,
    .authorizedAfter true true, .append ⟨[], [], []⟩ true, .run true, .close]

def closingWriter : SessionWriter := (closingRun.foldlM SessionWriter.act {}).getD {}

def sentWriter : SessionWriter :=
  ([SessionAction.entered true, .begun true true].foldlM SessionWriter.act closingWriter).getD {}

theorem closingWriter_reach : Reach SessionWriter.system closingRun closingWriter := by
  have hrun : closingRun.foldlM SessionWriter.act {} = some closingWriter := by decide
  exact (Reach.init rfl).foldlM (fun _ _ _ h => h) closingRun hrun

theorem closingWriter_sent : [SessionAction.entered true, .begun true true].foldlM
    SessionWriter.act closingWriter = some sentWriter := by
  decide

theorem sent_after_close : ¬∀ (as : List SessionAction) (s : SessionWriter),
    Reach SessionWriter.system as s → s.closed = true →
      ∀ (bs : List SessionAction) (t : SessionWriter),
        bs.foldlM SessionWriter.act s = some t → t.sent = s.sent := by
  intro hclaim
  have hsent := hclaim _ closingWriter closingWriter_reach (by decide) _ sentWriter
    closingWriter_sent
  exact absurd hsent (by decide)

def uncertainRun : List WriterAction :=
  [.start true, .connected true, .initialized true true, .append ⟨[], [], []⟩ 0 true, .fire true,
    .entered true, .begun true 1, .committed false]

def uncertainWriter : PublicationWriter := (uncertainRun.foldlM PublicationWriter.act {}).getD {}

theorem uncertainWriter_reach : Reach PublicationWriter.system uncertainRun uncertainWriter := by
  have hrun : uncertainRun.foldlM PublicationWriter.act {} = some uncertainWriter := by decide
  exact (Reach.init rfl).foldlM (fun _ _ _ h => h) uncertainRun hrun

theorem publication_writers_runs :
    (uncertainWriter.settled.map Prod.fst).Nodup ∧
    (sentWriter.sent = closingWriter.sent ∨ ∃ request, closingWriter.unsent = [request] ∧
      sentWriter.sent = closingWriter.sent ++ [request]) :=
  ⟨(publication_writers.1 _ uncertainWriter uncertainWriter_reach).1,
    ((publication_writers.2 _ closingWriter closingWriter_reach).2.2 _ sentWriter
      closingWriter_sent).2.1 (by decide)⟩

end EventLog
end PiCloud
