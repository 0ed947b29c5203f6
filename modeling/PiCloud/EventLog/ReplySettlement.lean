import PiCloud.EventLog.ToolReplies

/-!
# EventLog.ReplySettlement

Every wait of the mailbox settles once, and by nothing that is not for it.

* `Sound`: waits, places, listeners and settlements belong together.
* `Sound.finish`, `Sound.finishAll`: one wait, or several, settle.
* `Settles`: which action settles a wait, and how.
* `replies_settle_once`: after any actions in any order, and for the next one.
-/

namespace PiCloud
namespace EventLog

open Lib Protocol

def Ask.place : Ask → Place
  | .tool operationId _ _ _ => .tool operationId
  | .probe probeId bindingId _ => .probe (ToolReplyMailbox.probeKey probeId bindingId)

/-- The outcome proves that the execution has ended or never began. -/
def Settlement.ends : Settlement → Bool
  | .result _ => true
  | .failed failure => failure.effect = .notStarted
  | _ => false

namespace ToolReplyMailbox

def entry (s : ToolReplyMailbox) : Place → Option Nat
  | .tool operationId => (s.pending.get operationId).map (·.wait)
  | .probe key => s.probes.get key

def Waiting (s : ToolReplyMailbox) (w : Nat) : Prop := ∃ place, s.entry place = some w

structure Sound (s : ToolReplyMailbox) : Prop where
  asked : ∀ place w, s.entry place = some w → ∃ ask, s.asks[w]? = some ask ∧ ask.place = place
  call : ∀ operationId p, s.pending.get operationId = some p →
    ∃ signal, s.asks[p.wait]? = some (.tool operationId p.toolCallId p.toolName signal)
  waits : ∀ w, s.Waiting w → w ∉ s.settled.map Prod.fst
  every : ∀ w < s.asks.length, w ∈ s.settled.map Prod.fst ∨ s.Waiting w
  past : ∀ w ∈ s.settled.map Prod.fst, w < s.asks.length
  once : (s.settled.map Prod.fst).Nodup
  listener : ∀ l, l ∈ s.listeners ↔ s.entry l.place = some l.wait ∧
    (s.asks[l.wait]?).map Ask.signal = some l.signal
  listenOnce : s.listeners.Nodup
  executions : ∀ w, w ∈ s.executions ↔ ∃ outcome, (w, outcome) ∈ s.settled ∧ outcome.ends = true

def Live (s : ToolReplyMailbox) : Prop :=
  ∀ w ask, s.Waiting w → s.asks[w]? = some ask → ask.signal ∉ s.aborted

section Finish
variable {s : ToolReplyMailbox} {place : Place} {w : Nat}

theorem entry_delete (s : ToolReplyMailbox) (place q : Place) :
    (s.delete place).entry q = if q = place then none else s.entry q := by
  cases place with
  | tool operationId =>
    cases q with
    | tool q =>
      show ((s.pending.delete operationId).get q).map _ = _
      rw [InsertionMap.get_delete]
      by_cases hq : q = operationId
      · rw [if_pos hq, if_pos (by rw [hq])]
        rfl
      · rw [if_neg hq, if_neg fun he => hq (Place.tool.inj he)]
        rfl
    | probe q => rfl
  | probe key =>
    cases q with
    | tool q => rfl
    | probe q =>
      show (s.probes.delete key).get q = _
      rw [InsertionMap.get_delete]
      by_cases hq : q = key
      · rw [if_pos hq, if_pos (by rw [hq])]
      · rw [if_neg hq, if_neg fun he => hq (Place.probe.inj he)]
        rfl

theorem entry_finish (s : ToolReplyMailbox) (place q : Place) (w : Nat) (outcome : Settlement) :
    (s.finish place w outcome).entry q = if q = place then none else s.entry q := by
  rw [← entry_delete]
  cases q <;> rfl

theorem delete_fields (s : ToolReplyMailbox) (place : Place) :
    (s.delete place).asks = s.asks ∧ (s.delete place).listeners = s.listeners ∧
      (s.delete place).settled = s.settled ∧ (s.delete place).executions = s.executions ∧
      (s.delete place).aborted = s.aborted ∧
      ∀ operationId p, (s.delete place).pending.get operationId = some p →
        s.pending.get operationId = some p := by
  cases place with
  | tool operationId => exact ⟨rfl, rfl, rfl, rfl, rfl, fun _ _ h => InsertionMap.get_delete_some h⟩
  | probe key => exact ⟨rfl, rfl, rfl, rfl, rfl, fun _ _ h => h⟩

theorem finish_asks (s : ToolReplyMailbox) (place : Place) (w : Nat) (outcome : Settlement) :
    (s.finish place w outcome).asks = s.asks := (delete_fields s place).1

theorem finish_settled (s : ToolReplyMailbox) (place : Place) (w : Nat) (outcome : Settlement) :
    (s.finish place w outcome).settled = s.settled ++ [(w, outcome)] := by
  unfold finish
  dsimp only
  rw [(delete_fields s place).2.2.1]

theorem finish_listeners (s : ToolReplyMailbox) (place : Place) (w : Nat) (outcome : Settlement) :
    (s.finish place w outcome).listeners = s.listeners.filter (·.wait ≠ w) := by
  unfold finish
  dsimp only
  rw [(delete_fields s place).2.1]

theorem Sound.place_eq (h : Sound s) {q : Place} (hp : s.entry place = some w)
    (hq : s.entry q = some w) : q = place := by
  obtain ⟨ask, hask, rfl⟩ := h.asked place w hp
  obtain ⟨ask', hask', rfl⟩ := h.asked q w hq
  rw [hask] at hask'
  cases hask'
  rfl

theorem Sound.finish (h : Sound s) (hp : s.entry place = some w) (outcome : Settlement)
    (executions : List Nat)
    (hex : ∀ v, v ∈ executions ↔ v ∈ s.executions ∨ v = w ∧ outcome.ends = true) :
    Sound { s.finish place w outcome with executions } := by
  obtain ⟨hasks, -, -, -, -, hpending⟩ := delete_fields s place
  have hentry : ∀ q v, (s.finish place w outcome).entry q = some v ↔
      s.entry q = some v ∧ v ≠ w := by
    intro q v
    rw [entry_finish]
    split
    · rename_i hq
      subst hq
      refine iff_of_false nofun ?_
      rintro ⟨hv, hne⟩
      rw [hp] at hv
      cases hv
      exact hne rfl
    · rename_i hq
      refine ⟨fun hv => ⟨hv, ?_⟩, fun hv => hv.1⟩
      rintro rfl
      exact hq (h.place_eq hp hv)
  have hwait : ∀ v, (s.finish place w outcome).Waiting v ↔ s.Waiting v ∧ v ≠ w := fun v =>
    (exists_congr fun q => hentry q v).trans exists_and_right
  have hfst : (s.finish place w outcome).settled.map Prod.fst = s.settled.map Prod.fst ++ [w] := by
    rw [finish_settled, List.map_append]
    rfl
  have hout : w ∉ s.settled.map Prod.fst := h.waits w ⟨place, hp⟩
  obtain ⟨ask, hask, -⟩ := h.asked place w hp
  constructor
  · intro q v hv
    obtain ⟨hv, -⟩ := (hentry q v).mp hv
    show ∃ ask, (s.finish place w outcome).asks[v]? = _ ∧ _
    rw [finish_asks]
    exact h.asked q v hv
  · intro operationId p hget
    show ∃ signal, (s.finish place w outcome).asks[p.wait]? = _
    rw [finish_asks]
    exact h.call operationId p (hpending operationId p hget)
  · intro v hv
    obtain ⟨hv, hne⟩ := (hwait v).mp hv
    show v ∉ (s.finish place w outcome).settled.map Prod.fst
    rw [hfst, List.mem_append, List.mem_singleton]
    rintro (hs | rfl)
    · exact h.waits v hv hs
    · exact hne rfl
  · intro v hv
    change v < (s.finish place w outcome).asks.length at hv
    rw [finish_asks] at hv
    show v ∈ (s.finish place w outcome).settled.map Prod.fst ∨ (s.finish place w outcome).Waiting v
    rw [hfst, List.mem_append, List.mem_singleton, hwait]
    by_cases hvw : v = w
    · exact .inl (.inr hvw)
    · exact (h.every v hv).imp .inl fun hw => ⟨hw, hvw⟩
  · intro v hv
    change v ∈ (s.finish place w outcome).settled.map Prod.fst at hv
    show v < (s.finish place w outcome).asks.length
    rw [hfst, List.mem_append, List.mem_singleton] at hv
    rw [finish_asks]
    rcases hv with hv | rfl
    · exact h.past v hv
    · exact (List.getElem?_eq_some_iff.mp hask).1
  · show ((s.finish place w outcome).settled.map Prod.fst).Nodup
    rw [hfst]
    exact (List.perm_append_comm.nodup_iff).mpr (List.nodup_cons.mpr ⟨hout, h.once⟩)
  · intro l
    show l ∈ (s.finish place w outcome).listeners ↔
      (s.finish place w outcome).entry l.place = some l.wait ∧
        ((s.finish place w outcome).asks[l.wait]?).map Ask.signal = some l.signal
    rw [finish_listeners, List.mem_filter, decide_eq_true_iff, h.listener, hentry, finish_asks]
    exact and_right_comm
  · show (s.finish place w outcome).listeners.Nodup
    rw [finish_listeners]
    exact h.listenOnce.filter _
  · intro v
    show v ∈ executions ↔ ∃ out, (v, out) ∈ (s.finish place w outcome).settled ∧ _
    rw [hex, h.executions, finish_settled]
    constructor
    · rintro (⟨out, hmem, hends⟩ | ⟨rfl, hends⟩)
      · exact ⟨out, List.mem_append_left _ hmem, hends⟩
      · exact ⟨outcome, List.mem_append_right _ List.mem_cons_self, hends⟩
    · rintro ⟨out, hmem, hends⟩
      rcases List.mem_append.mp hmem with hmem | hmem
      · exact .inl ⟨out, hmem, hends⟩
      · cases List.mem_singleton.mp hmem
        exact .inr ⟨rfl, hends⟩

end Finish

theorem Sound.initial : Sound initial where
  asked place w h := by
    cases place <;> cases h
  call := nofun
  waits w h := by
    obtain ⟨place, h⟩ := h
    cases place <;> cases h
  every := nofun
  past := nofun
  once := List.nodup_nil
  listener l := by
    refine iff_of_false List.not_mem_nil ?_
    rintro ⟨h, -⟩
    cases hl : l.place <;> rw [hl] at h <;> cases h
  listenOnce := List.nodup_nil
  executions w := by
    refine iff_of_false List.not_mem_nil ?_
    rintro ⟨outcome, h, -⟩
    cases h

theorem Sound.ask {s t : ToolReplyMailbox} (h : Sound s) (ask : Ask)
    (hfree : s.entry ask.place = none)
    (hentry : ∀ q, t.entry q = if q = ask.place then some s.asks.length else s.entry q)
    (hcall : ∀ operationId p, t.pending.get operationId = some p →
      s.pending.get operationId = some p ∨ p.wait = s.asks.length ∧
        ask = .tool operationId p.toolCallId p.toolName ask.signal)
    (hasks : t.asks = s.asks ++ [ask])
    (hl : t.listeners = s.listeners ++ [⟨ask.signal, ask.place, s.asks.length⟩])
    (hsettled : t.settled = s.settled) (hex : t.executions = s.executions) : Sound t := by
  have hold : ∀ (w : Nat) ask', s.asks[w]? = some ask' → t.asks[w]? = some ask' := by
    intro w ask' hw
    rw [hasks, List.getElem?_append_left (List.getElem?_eq_some_iff.mp hw).1]
    exact hw
  have hnew : t.asks[s.asks.length]? = some ask := by
    rw [hasks, List.getElem?_concat_length]
  have hlt : ∀ q w, s.entry q = some w → w < s.asks.length := by
    intro q w hq
    obtain ⟨ask', hask, -⟩ := h.asked q w hq
    exact (List.getElem?_eq_some_iff.mp hask).1
  have hcases : ∀ q w, t.entry q = some w ↔
      s.entry q = some w ∨ q = ask.place ∧ w = s.asks.length := by
    intro q w
    rw [hentry]
    split
    · rename_i hq
      rw [hq, hfree]
      constructor
      · intro hw
        cases hw
        exact .inr ⟨rfl, rfl⟩
      · rintro (hw | ⟨-, rfl⟩)
        · cases hw
        · rfl
    · rename_i hq
      exact (or_iff_left fun hb => hq hb.1).symm
  constructor
  · intro q w hq
    rcases (hcases q w).mp hq with hq | ⟨rfl, rfl⟩
    · obtain ⟨ask', hask, hplace⟩ := h.asked q w hq
      exact ⟨ask', hold w ask' hask, hplace⟩
    · exact ⟨ask, hnew, rfl⟩
  · intro operationId p hp
    rcases hcall operationId p hp with hp | ⟨hw, hask⟩
    · obtain ⟨signal, hcall⟩ := h.call operationId p hp
      exact ⟨signal, hold _ _ hcall⟩
    · exact ⟨ask.signal, by rw [hw, hnew, ← hask]⟩
  · rintro w ⟨q, hq⟩ hs
    rw [hsettled] at hs
    rcases (hcases q w).mp hq with hq | ⟨-, rfl⟩
    · exact h.waits w ⟨q, hq⟩ hs
    · exact Nat.lt_irrefl _ (h.past _ hs)
  · intro w hw
    rw [hasks, List.length_append, List.length_singleton] at hw
    rw [hsettled]
    rcases Nat.lt_succ_iff_lt_or_eq.mp hw with hw | rfl
    · refine (h.every w hw).imp_right ?_
      rintro ⟨q, hq⟩
      exact ⟨q, (hcases q w).mpr (.inl hq)⟩
    · exact .inr ⟨ask.place, (hcases _ _).mpr (.inr ⟨rfl, rfl⟩)⟩
  · intro w hw
    rw [hsettled] at hw
    rw [hasks, List.length_append]
    exact Nat.lt_add_right _ (h.past w hw)
  · rw [hsettled]
    exact h.once
  · intro l
    rw [hl, List.mem_append, List.mem_singleton, h.listener, hcases]
    constructor
    · rintro (⟨hq, hsignal⟩ | rfl)
      · refine ⟨.inl hq, ?_⟩
        obtain ⟨ask', hask, -⟩ := h.asked _ _ hq
        rw [hask] at hsignal
        rw [hold _ _ hask]
        exact hsignal
      · exact ⟨.inr ⟨rfl, rfl⟩, by rw [hnew]; rfl⟩
    · rintro ⟨hq | ⟨hplace, hw⟩, hsignal⟩
      · left
        obtain ⟨ask', hask, -⟩ := h.asked _ _ hq
        rw [hold _ _ hask] at hsignal
        rw [hask]
        exact ⟨hq, hsignal⟩
      · right
        rw [hw, hnew] at hsignal
        cases l
        cases hplace
        cases hw
        cases hsignal
        rfl
  · rw [hl]
    refine (List.perm_append_comm.nodup_iff).mpr (List.nodup_cons.mpr ⟨fun hin => ?_, h.listenOnce⟩)
    exact Nat.lt_irrefl _ (hlt _ _ ((h.listener _).mp hin).1)
  · intro w
    rw [hex, hsettled]
    exact h.executions w

/-- The reply names the operation and the call, and is the first of it. -/
def Bears (m : Members) (operationId toolCallId toolName : JsString) : Prop :=
  m.get "operationId" = some (.str operationId) ∧
    at? (identity m) "toolCallId" = some (.str toolCallId) ∧
    at? (identity m) "toolName" = some (.str toolName) ∧ m.get "sequence" = some (.num 1)

/-- The reply names the probe and the binding. The mailbox reads both as one key, in which only a
colon of their own could be taken for the one between them. -/
def BearsProbe (names : JsString × List JsString) (probeId bindingId : JsString) : Prop :=
  (∃ b ∈ names.2, probeKey names.1 b = probeKey probeId bindingId) ∧
    (0x3A ∉ probeId → 0x3A ∉ bindingId → names.1 = probeId ∧ bindingId ∈ names.2)

/-- What an action may do to a wait: a reply of its own ends it or fails, a reply to its operation
with another identity or order fails it. -/
inductive Settles (size : JsString → Nat) : Action → Ask → Settlement → Prop where
  | result {m : Members} {operationId toolCallId toolName : JsString} {signal : Nat} {v : Field} :
      Bears m operationId toolCallId toolName → isText (m.get "kind") "tool_result" = true →
      parsePackedToolResultPayload (m.get "result") = .ok v →
      Settles size (.accept (.tool m)) (.tool operationId toolCallId toolName signal) (.result v)
  | protocolError {m : Members} {operationId toolCallId toolName : JsString} {signal : Nat}
      {error : String} :
      Bears m operationId toolCallId toolName → isText (m.get "kind") "tool_result" = true →
      parsePackedToolResultPayload (m.get "result") = .error error →
      Settles size (.accept (.tool m)) (.tool operationId toolCallId toolName signal) .protocolError
  | failed {m : Members} {operationId toolCallId toolName : JsString} {signal : Nat}
      {failure : ToolExecutionFailureData} :
      Bears m operationId toolCallId toolName → isText (m.get "kind") "execution_failure" = true →
      parseToolExecutionFailure size (m.get "failure") = .ok failure →
      Settles size (.accept (.tool m)) (.tool operationId toolCallId toolName signal)
        (.failed failure)
  | unreadable {m : Members} {operationId toolCallId toolName : JsString} {signal : Nat}
      {error : String} :
      Bears m operationId toolCallId toolName → isText (m.get "kind") "execution_failure" = true →
      parseToolExecutionFailure size (m.get "failure") = .error error →
      Settles size (.accept (.tool m)) (.tool operationId toolCallId toolName signal)
        (.unreadable error)
  | identityChanged {m : Members} {operationId toolCallId toolName : JsString} {signal : Nat} :
      m.get "operationId" = some (.str operationId) →
      ¬ (Bears m operationId toolCallId toolName ∧ (isText (m.get "kind") "tool_result" = true ∨
        isText (m.get "kind") "execution_failure" = true)) →
      Settles size (.accept (.tool m)) (.tool operationId toolCallId toolName signal)
        .identityChanged
  | probed {id probeId bindingId : JsString} {bindingIds : List JsString} {rest : Members}
      {signal : Nat} :
      BearsProbe (id, bindingIds) probeId bindingId →
      Settles size (.accept (.executionProbe id bindingIds rest)) (.probe probeId bindingId signal)
        (.probed (.executionProbe id bindingIds rest))
  | aborted {ask : Ask} : Settles size (.abort ask.signal) ask .aborted
  | closed {ask : Ask} : Settles size .close ask .closed

/-- From `s` to `t` some waits have settled, each as `J` allows. -/
structure Follows (J : Ask → Settlement → Prop) (s t : ToolReplyMailbox) : Prop where
  sound : Sound t
  asks : t.asks = s.asks
  aborted : t.aborted = s.aborted
  entries : ∀ place w, t.entry place = some w → s.entry place = some w
  settled : ∃ new, t.settled = s.settled ++ new ∧
    ∀ e ∈ new, ∃ ask, s.asks[e.1]? = some ask ∧ s.Waiting e.1 ∧ J ask e.2

theorem Follows.refl {J : Ask → Settlement → Prop} {s : ToolReplyMailbox} (h : Sound s) :
    Follows J s s :=
  ⟨h, rfl, rfl, fun _ _ hw => hw, [], (List.append_nil _).symm, nofun⟩

theorem Follows.trans {J : Ask → Settlement → Prop} {s t u : ToolReplyMailbox}
    (h : Follows J s t) (h' : Follows J t u) : Follows J s u := by
  obtain ⟨new, hnew, hj⟩ := h.settled
  obtain ⟨new', hnew', hj'⟩ := h'.settled
  refine ⟨h'.sound, h'.asks.trans h.asks, h'.aborted.trans h.aborted,
    fun place w hw => h.entries place w (h'.entries place w hw), new ++ new', ?_, ?_⟩
  · rw [hnew', hnew, List.append_assoc]
  · intro e he
    rcases List.mem_append.mp he with he | he
    · exact hj e he
    · obtain ⟨ask, hask, ⟨place, hw⟩, hout⟩ := hj' e he
      rw [h.asks] at hask
      exact ⟨ask, hask, ⟨place, h.entries place _ hw⟩, hout⟩

theorem finish_follows {J : Ask → Settlement → Prop} {s : ToolReplyMailbox} {place : Place} {w : Nat}
    (hp : s.entry place = some w) {outcome : Settlement} {executions : List Nat}
    (hsound : Sound { s.finish place w outcome with executions })
    (hj : ∃ ask, s.asks[w]? = some ask ∧ J ask outcome) :
    Follows J s { s.finish place w outcome with executions } := by
  refine ⟨hsound, finish_asks s place w outcome, (delete_fields s place).2.2.2.2.1, fun q v hv => ?_,
    [(w, outcome)], finish_settled s place w outcome, fun e he => ?_⟩
  · change (s.finish place w outcome).entry q = some v at hv
    rw [entry_finish] at hv
    split at hv
    · cases hv
    · exact hv
  · cases List.mem_singleton.mp he
    obtain ⟨ask, hask, hout⟩ := hj
    exact ⟨ask, hask, ⟨place, hp⟩, hout⟩

theorem Sound.finish_plain {J : Ask → Settlement → Prop} {s : ToolReplyMailbox} (h : Sound s)
    {place : Place} {w : Nat} (hp : s.entry place = some w) {outcome : Settlement}
    (hends : outcome.ends = false) (hj : ∃ ask, s.asks[w]? = some ask ∧ J ask outcome) :
    Follows J s (s.finish place w outcome) := by
  have hex : (s.finish place w outcome).executions = s.executions :=
    (delete_fields s place).2.2.2.1
  have hsound := h.finish hp outcome s.executions (by
    intro v
    rw [hends]
    exact (or_iff_left fun hb => Bool.noConfusion hb.2).symm)
  rw [← hex] at hsound
  exact finish_follows hp hsound hj

theorem Sound.finish_ends {J : Ask → Settlement → Prop} {s : ToolReplyMailbox} (h : Sound s)
    {place : Place} {w : Nat} (hp : s.entry place = some w) {outcome : Settlement}
    (hends : outcome.ends = true) (hj : ∃ ask, s.asks[w]? = some ask ∧ J ask outcome) :
    Follows J s ((s.settleExecution w).finish place w outcome) := by
  have hsound := h.finish hp outcome (w :: s.executions) (by
    intro v
    rw [hends, List.mem_cons, and_iff_left rfl]
    exact or_comm)
  have heq : (s.settleExecution w).finish place w outcome =
      { s.finish place w outcome with executions := w :: s.executions } := by
    cases place <;> rfl
  rw [heq]
  exact finish_follows hp hsound hj

def finishAll (s : ToolReplyMailbox) (outcome : Settlement) (es : List (Place × Nat)) :
    ToolReplyMailbox :=
  es.foldl (fun s e => s.finish e.1 e.2 outcome) s

theorem Sound.finishAll {J : Ask → Settlement → Prop} (es : List (Place × Nat))
    {s : ToolReplyMailbox} (h : Sound s) (outcome : Settlement) (hends : outcome.ends = false)
    (hes : ∀ e ∈ es, s.entry e.1 = some e.2) (hnodup : (es.map Prod.fst).Nodup)
    (hj : ∀ e ∈ es, ∃ ask, s.asks[e.2]? = some ask ∧ J ask outcome) :
    Follows J s (s.finishAll outcome es) ∧
      ∀ e ∈ es, (s.finishAll outcome es).entry e.1 = none := by
  induction es generalizing s with
  | nil => exact ⟨.refl h, nofun⟩
  | cons e es ih =>
    rw [List.map_cons, List.nodup_cons] at hnodup
    have hfirst := h.finish_plain (J := J) (hes e List.mem_cons_self) hends
      (hj e List.mem_cons_self)
    have hrest : ∀ e' ∈ es, (s.finish e.1 e.2 outcome).entry e'.1 = some e'.2 := by
      intro e' he'
      have hne : e'.1 ≠ e.1 := fun heq => hnodup.1 (List.mem_map.mpr ⟨e', he', heq⟩)
      rw [entry_finish, if_neg hne]
      exact hes e' (List.mem_cons_of_mem _ he')
    have hjrest : ∀ e' ∈ es, ∃ ask, (s.finish e.1 e.2 outcome).asks[e'.2]? = some ask ∧
        J ask outcome := by
      intro e' he'
      rw [finish_asks]
      exact hj e' (List.mem_cons_of_mem _ he')
    obtain ⟨hfollows, hgone⟩ := ih hfirst.sound hrest hnodup.2 hjrest
    refine ⟨hfirst.trans hfollows, fun e' he' => ?_⟩
    rcases List.mem_cons.mp he' with rfl | he'
    · cases hin : ((s.finish e'.1 e'.2 outcome).finishAll outcome es).entry e'.1 with
      | none => exact hin
      | some v =>
        have hbefore := hfollows.entries _ _ hin
        rw [entry_finish, if_pos rfl] at hbefore
        cases hbefore
    · exact hgone e' he'

/-- What an action does: the mailbox stays sound, no aborted signal is waited on, and each wait that
settled was waiting and settled as the action allows. -/
structure Moves (size : JsString → Nat) (a : Action) (s t : ToolReplyMailbox) : Prop where
  sound : Sound t
  live : Live t
  settled : ∃ new, t.settled = s.settled ++ new ∧
    ∀ e ∈ new, ∃ ask, s.asks[e.1]? = some ask ∧ s.Waiting e.1 ∧ Settles size a ask e.2

theorem Moves.stay {size : JsString → Nat} {a : Action} {s : ToolReplyMailbox} (h : Sound s)
    (hlive : Live s) : Moves size a s s :=
  ⟨h, hlive, [], (List.append_nil _).symm, nofun⟩

theorem Follows.live {J : Ask → Settlement → Prop} {s t : ToolReplyMailbox} (h : Follows J s t)
    (hlive : Live s) : Live t := by
  rintro w ask ⟨place, hw⟩ hask
  rw [h.aborted]
  rw [h.asks] at hask
  exact hlive w ask ⟨place, h.entries place w hw⟩ hask

theorem Follows.moves {size : JsString → Nat} {a : Action} {s t : ToolReplyMailbox}
    (h : Follows (Settles size a) s t) (hlive : Live s) : Moves size a s t :=
  ⟨h.sound, h.live hlive, h.settled⟩

section Actions
variable {size : JsString → Nat} {s : ToolReplyMailbox}

theorem Moves.ask {a : Action} {t : ToolReplyMailbox} (hlive : Live s) (ask : Ask)
    (hsound : Sound t) (hentry : ∀ q, t.entry q = if q = ask.place then some s.asks.length
      else s.entry q) (hs : Sound s)
    (hasks : t.asks = s.asks ++ [ask]) (haborted : t.aborted = s.aborted)
    (hsettled : t.settled = s.settled) (hsignal : ask.signal ∉ s.aborted) : Moves size a s t := by
  refine ⟨hsound, ?_, [], by rw [hsettled, List.append_nil], nofun⟩
  rintro w ask' ⟨q, hq⟩ hask
  rw [haborted]
  rw [hentry] at hq
  rw [hasks] at hask
  split at hq
  · cases hq
    rw [List.getElem?_concat_length] at hask
    cases hask
    exact hsignal
  · obtain ⟨ask'', hask', -⟩ := hs.asked q w hq
    rw [List.getElem?_append_left (List.getElem?_eq_some_iff.mp hask').1] at hask
    exact hlive w ask' ⟨q, hq⟩ hask

theorem Sound.wait (h : Sound s) (hlive : Live s) (operationId toolCallId toolName : JsString)
    (signal : Nat) :
    Moves size (.wait operationId toolCallId toolName signal) s
      (s.wait operationId toolCallId toolName signal) := by
  unfold ToolReplyMailbox.wait
  split
  · exact .stay h hlive
  rename_i hsignal
  split
  · exact .stay h hlive
  rename_i hfree
  rw [Option.not_isSome_iff_eq_none] at hfree
  have hentry : ∀ q, ToolReplyMailbox.entry { s with
      pending := s.pending.set operationId ⟨toolCallId, toolName, s.asks.length⟩
      asks := s.asks ++ [.tool operationId toolCallId toolName signal]
      listeners := s.listeners ++ [⟨signal, .tool operationId, s.asks.length⟩] } q =
        if q = Place.tool operationId then some s.asks.length else s.entry q := by
    intro q
    cases q with
    | tool q =>
      show ((s.pending.set operationId _).get q).map _ = _
      rw [InsertionMap.get_set]
      by_cases hq : q = operationId
      · rw [if_pos hq, if_pos (by rw [hq])]
        rfl
      · rw [if_neg hq, if_neg fun he => hq (Place.tool.inj he)]
        rfl
    | probe q => rfl
  have hsound := h.ask (t := { s with
      pending := s.pending.set operationId ⟨toolCallId, toolName, s.asks.length⟩
      asks := s.asks ++ [.tool operationId toolCallId toolName signal]
      listeners := s.listeners ++ [⟨signal, .tool operationId, s.asks.length⟩] })
    (.tool operationId toolCallId toolName signal) ?_ hentry ?_ rfl rfl rfl rfl
  · exact .ask hlive (.tool operationId toolCallId toolName signal) hsound hentry h rfl rfl rfl
      hsignal
  · show (s.pending.get operationId).map _ = none
    rw [hfree]
    rfl
  · intro q p hp
    dsimp only at hp
    rw [InsertionMap.get_set] at hp
    split at hp
    · rename_i hq
      cases hp
      exact .inr ⟨rfl, by rw [hq]; rfl⟩
    · exact .inl hp

theorem Sound.waitProbe (h : Sound s) (hlive : Live s) (probeId bindingId : JsString)
    (signal : Nat) :
    Moves size (.waitProbe probeId bindingId signal) s (s.waitProbe probeId bindingId signal) := by
  unfold ToolReplyMailbox.waitProbe
  dsimp only
  split
  · exact .stay h hlive
  rename_i hsignal
  split
  · exact .stay h hlive
  rename_i hfree
  rw [not_or, Option.not_isSome_iff_eq_none] at hfree
  have hentry : ∀ q, ToolReplyMailbox.entry { s with
      probes := s.probes.set (probeKey probeId bindingId) s.asks.length
      asks := s.asks ++ [.probe probeId bindingId signal]
      listeners := s.listeners ++ [⟨signal, .probe (probeKey probeId bindingId), s.asks.length⟩] } q =
        if q = Place.probe (probeKey probeId bindingId) then some s.asks.length else s.entry q := by
    intro q
    cases q with
    | tool q => rfl
    | probe q =>
      show (s.probes.set _ _).get q = _
      rw [InsertionMap.get_set]
      by_cases hq : q = probeKey probeId bindingId
      · rw [if_pos hq, if_pos (by rw [hq])]
      · rw [if_neg hq, if_neg fun he => hq (Place.probe.inj he)]
        rfl
  have hsound := h.ask (.probe probeId bindingId signal) hfree.2 hentry
    (fun _ _ hp => .inl hp) rfl rfl rfl rfl
  exact .ask hlive (.probe probeId bindingId signal) hsound hentry h rfl rfl rfl hsignal

theorem Sound.abort (h : Sound s) (hlive : Live s) (signal : Nat) :
    Moves size (.abort signal) s (s.abort signal) := by
  unfold ToolReplyMailbox.abort
  split
  · exact .stay h hlive
  have hsound : Sound { s with aborted := signal :: s.aborted } := { h with }
  have hask : ∀ l ∈ s.listeners, ∃ ask, s.asks[l.wait]? = some ask ∧ ask.signal = l.signal := by
    intro l hl
    exact Option.map_eq_some_iff.mp ((h.listener l).mp hl).2
  have hunique : ((s.listeners.filter (·.signal = signal)).map Listener.place).Nodup := by
    refine List.Nodup.map_on ?_ (h.listenOnce.filter _)
    intro l hl l' hl' hplace
    rw [List.mem_filter, decide_eq_true_iff] at hl hl'
    have hw := ((h.listener l).mp hl.1).1
    have hw' := ((h.listener l').mp hl'.1).1
    rw [← hplace, hw] at hw'
    cases l
    cases l'
    cases hplace
    cases hw'
    cases hl.2
    cases hl'.2
    rfl
  obtain ⟨hfollows, hgone⟩ := hsound.finishAll (J := Settles size (.abort signal))
    ((s.listeners.filter (·.signal = signal)).map fun l => (l.place, l.wait)) .aborted rfl
    (by
      rintro e he
      obtain ⟨l, hl, rfl⟩ := List.mem_map.mp he
      exact ((h.listener l).mp (List.mem_of_mem_filter hl)).1)
    (by
      rw [List.map_map]
      exact hunique)
    (by
      rintro e he
      obtain ⟨l, hl, rfl⟩ := List.mem_map.mp he
      rw [List.mem_filter, decide_eq_true_iff] at hl
      obtain ⟨ask, hask, hsignal⟩ := hask l hl.1
      refine ⟨ask, hask, ?_⟩
      rw [← hl.2, ← hsignal]
      exact .aborted)
  unfold ToolReplyMailbox.finishAll at hfollows hgone
  rw [List.foldl_map] at hfollows hgone
  refine ⟨hfollows.sound, ?_, hfollows.settled⟩
  rintro w ask ⟨place, hw⟩ hw'
  have hold := hfollows.entries place w hw
  rw [hfollows.asks] at hw'
  rw [hfollows.aborted, List.mem_cons, not_or]
  refine ⟨?_, hlive w ask ⟨place, hold⟩ hw'⟩
  rintro rfl
  have hl : (⟨ask.signal, place, w⟩ : Listener) ∈ s.listeners := by
    refine (h.listener _).mpr ⟨hold, ?_⟩
    change s.asks[w]? = some ask at hw'
    rw [hw']
    rfl
  have hnone := hgone (place, w) (List.mem_map.mpr
    ⟨_, List.mem_filter.mpr ⟨hl, decide_eq_true rfl⟩, rfl⟩)
  rw [hw] at hnone
  cases hnone

theorem isStr_iff {v : Field} {t : JsString} : isStr v t = true ↔ v = some (.str t) := by
  unfold isStr
  split
  · rw [decide_eq_true_iff, Option.some_inj, Json.str.injEq]
  · rename_i hne
    refine iff_of_false nofun ?_
    rintro rfl
    exact hne t rfl

theorem same_one_iff {v : Field} : same v (some (.num 1)) = true ↔ v = some (.num 1) := by
  cases v with
  | none => simp [same]
  | some v => cases v <;> simp [same]

theorem matches_iff {m : Members} {operationId : JsString} (toolCallId toolName : JsString)
    (h : m.get "operationId" = some (.str operationId)) :
    matches? m toolCallId toolName = true ↔ Bears m operationId toolCallId toolName ∧
      (isText (m.get "kind") "tool_result" = true ∨
        isText (m.get "kind") "execution_failure" = true) := by
  unfold matches? Bears
  rw [Bool.and_eq_true, Bool.and_eq_true, Bool.and_eq_true, Bool.or_eq_true, isStr_iff, isStr_iff,
    same_one_iff, and_iff_right h, or_comm, and_assoc (a := at? (identity m) "toolCallId" = _)]

theorem Sound.acceptTool (h : Sound s) {m : Members} {operationId : JsString} {p : Pending}
    (hm : m.get "operationId" = some (.str operationId))
    (hp : s.pending.get operationId = some p) :
    Follows (Settles size (.accept (.tool m))) s (s.acceptTool size m operationId p) ∧
      (s.acceptTool size m operationId p).entry (.tool operationId) = none := by
  obtain ⟨signal, hask⟩ := h.call operationId p hp
  have hentry : s.entry (.tool operationId) = some p.wait := by
    show (s.pending.get operationId).map _ = _
    rw [hp]
    rfl
  have hgone : ∀ (t : ToolReplyMailbox) outcome,
      (t.finish (.tool operationId) p.wait outcome).entry (.tool operationId) = none := by
    intro t outcome
    rw [entry_finish, if_pos rfl]
  have hmatch := matches_iff p.toolCallId p.toolName hm
  unfold ToolReplyMailbox.acceptTool
  dsimp only
  by_cases hown : matches? m p.toolCallId p.toolName = true
  swap
  · rw [if_pos (by rw [Bool.not_eq_true'] ; exact eq_false_of_ne_true hown)]
    refine ⟨h.finish_plain hentry rfl ⟨_, hask, .identityChanged hm ?_⟩, hgone _ _⟩
    exact fun hb => hown (hmatch.mpr hb)
  obtain ⟨hbears, hkind⟩ := hmatch.mp hown
  rw [if_neg (by rw [hown]; nofun)]
  split
  · rename_i hfailure
    cases hparse : parseToolExecutionFailure size (m.get "failure") with
    | error error =>
      exact ⟨h.finish_plain hentry rfl ⟨_, hask, .unreadable hbears hfailure hparse⟩, hgone _ _⟩
    | ok failure =>
      dsimp only
      refine ⟨?_, hgone _ _⟩
      split
      · rename_i heffect
        exact h.finish_ends hentry (decide_eq_true heffect) ⟨_, hask, .failed hbears hfailure hparse⟩
      · rename_i heffect
        exact h.finish_plain hentry (decide_eq_false heffect)
          ⟨_, hask, .failed hbears hfailure hparse⟩
  · rename_i hfailure
    replace hkind := hkind.resolve_right hfailure
    cases hparse : parsePackedToolResultPayload (m.get "result") with
    | error error =>
      exact ⟨h.finish_plain hentry rfl ⟨_, hask, .protocolError hbears hkind hparse⟩, hgone _ _⟩
    | ok result =>
      dsimp only
      have hfollows : Follows (Settles size (.accept (.tool m))) s
          ((s.settleExecution p.wait).finish (.tool operationId) p.wait (.result result)) :=
        h.finish_ends hentry rfl ⟨_, hask, .result hbears hkind hparse⟩
      split
      · exact ⟨{ hfollows with sound := { hfollows.sound with } },
          hgone (s.settleExecution p.wait) (.result result)⟩
      · exact ⟨hfollows, hgone _ _⟩

theorem probeKey_own {id b probeId bindingId : JsString}
    (h : probeKey id b = probeKey probeId bindingId) (hp : 0x3A ∉ probeId) (hb : 0x3A ∉ bindingId) :
    id = probeId ∧ b = bindingId := by
  unfold probeKey at h
  rw [show ascii ":" = [0x3A] from by decide +kernel, List.append_assoc, List.append_assoc,
    List.singleton_append, List.singleton_append] at h
  obtain ⟨hid, -, hbinding⟩ := (List.append_cons_inj_of_notMem hp hb).mp h.symm
  exact ⟨hid.symm, hbinding.symm⟩

theorem Sound.acceptBindings {id : JsString} {bindingIds : List JsString} {rest : Members}
    (ids : List JsString) (hids : ids ⊆ bindingIds) (h : Sound s) :
    Follows (Settles size (.accept (.executionProbe id bindingIds rest))) s
      (ids.foldl (acceptBinding (.executionProbe id bindingIds rest) id) s) := by
  induction ids generalizing s with
  | nil => exact .refl h
  | cons b ids ih =>
    rw [List.cons_subset] at hids
    have hstep : Follows (Settles size (.accept (.executionProbe id bindingIds rest))) s
        (acceptBinding (.executionProbe id bindingIds rest) id s b) := by
      unfold acceptBinding
      dsimp only
      split
      · exact .refl h
      · rename_i w hw
        change s.entry (.probe (probeKey id b)) = some w at hw
        refine h.finish_plain hw rfl ?_
        obtain ⟨ask, hask, hplace⟩ := h.asked (.probe (probeKey id b)) w hw
        cases ask with
        | tool operationId toolCallId toolName signal => cases hplace
        | probe probeId bindingId signal =>
          have hkey : probeKey id b = probeKey probeId bindingId := (Place.probe.inj hplace).symm
          refine ⟨_, hask, .probed ⟨⟨b, hids.1, hkey⟩, fun hp hb => ?_⟩⟩
          obtain ⟨rfl, rfl⟩ := probeKey_own hkey hp hb
          exact ⟨rfl, hids.1⟩
    exact hstep.trans (ih hids.2 hstep.sound)

theorem Sound.accept (h : Sound s) (hlive : Live s) (reply : WorkerReply) :
    Moves size (.accept reply) s (s.accept size reply) := by
  unfold ToolReplyMailbox.accept
  cases reply with
  | executionProbe id bindingIds rest =>
    exact (h.acceptBindings bindingIds (List.Subset.refl _)).moves hlive
  | tool m =>
    dsimp only
    split
    · rename_i operationId hm
      split
      · exact .stay h hlive
      · rename_i p hp
        exact (h.acceptTool hm hp).1.moves hlive
    · exact .stay h hlive

theorem Sound.closeAll (size : JsString → Nat) (h : Sound s) (es : List (Place × Nat))
    (hes : ∀ e ∈ es, s.entry e.1 = some e.2) (hnodup : (es.map Prod.fst).Nodup) :
    Follows (Settles size .close) s (s.finishAll .closed es) ∧
      ∀ e ∈ es, (s.finishAll .closed es).entry e.1 = none := by
  refine h.finishAll es .closed rfl hes hnodup fun e he => ?_
  obtain ⟨ask, hask, -⟩ := h.asked e.1 e.2 (hes e he)
  exact ⟨ask, hask, .closed⟩

theorem Sound.close (size : JsString → Nat) (h : Sound s) (hlive : Live s) :
    Moves size .close s s.close ∧ ∀ w, ¬ s.close.Waiting w := by
  have hprobes := h.closeAll size (s.probes.entries.map fun e => (.probe e.1, e.2)) (by
    intro e he
    obtain ⟨⟨key, w⟩, hin, rfl⟩ := List.mem_map.mp he
    exact InsertionMap.mem_entries.mp hin) (by
    rw [List.map_map, show Prod.fst ∘ (fun e : JsString × Nat => (Place.probe e.1, e.2)) =
      Place.probe ∘ Prod.fst from rfl, ← List.map_map]
    exact s.probes.nodup.map fun _ _ => Place.probe.inj)
  unfold ToolReplyMailbox.finishAll at hprobes
  rw [List.foldl_map] at hprobes
  unfold ToolReplyMailbox.close
  dsimp only
  generalize s.probes.entries.foldl (fun s e => s.finish (.probe e.1) e.2 .closed) s = t at hprobes ⊢
  obtain ⟨hfollows, hgone⟩ := hprobes
  have hcalls := hfollows.sound.closeAll size
    (t.pending.entries.map fun e => (.tool e.1, e.2.wait)) (by
      intro e he
      obtain ⟨⟨operationId, p⟩, hin, rfl⟩ := List.mem_map.mp he
      show (t.pending.get operationId).map _ = _
      rw [InsertionMap.mem_entries.mp hin]
      rfl) (by
      rw [List.map_map, show Prod.fst ∘ (fun e : JsString × Pending => (Place.tool e.1, e.2.wait)) =
        Place.tool ∘ Prod.fst from rfl, ← List.map_map]
      exact t.pending.nodup.map fun _ _ => Place.tool.inj)
  unfold ToolReplyMailbox.finishAll at hcalls
  rw [List.foldl_map] at hcalls
  obtain ⟨hfollows', hgone'⟩ := hcalls
  refine ⟨(hfollows.trans hfollows').moves hlive, ?_⟩
  rintro w ⟨place, hw⟩
  have hbefore := hfollows'.entries place w hw
  cases place with
  | tool operationId =>
    obtain ⟨p, hp, rfl⟩ := Option.map_eq_some_iff.mp hbefore
    have hnone := hgone' (.tool operationId, p.wait)
      (List.mem_map.mpr ⟨_, InsertionMap.mem_entries.mpr hp, rfl⟩)
    rw [hw] at hnone
    cases hnone
  | probe key =>
    have hfirst := hfollows.entries (.probe key) w hbefore
    have hnone := hgone (.probe key, w)
      (List.mem_map.mpr ⟨_, InsertionMap.mem_entries.mpr hfirst, rfl⟩)
    rw [hbefore] at hnone
    cases hnone

theorem Sound.act (size : JsString → Nat) (h : Sound s) (hlive : Live s) (a : Action) : Moves size a s (act size s a) := by
  cases a with
  | wait operationId toolCallId toolName signal =>
    exact h.wait hlive operationId toolCallId toolName signal
  | waitProbe probeId bindingId signal => exact h.waitProbe hlive probeId bindingId signal
  | abort signal => exact h.abort hlive signal
  | accept reply => exact h.accept hlive reply
  | close => exact (h.close size hlive).1

end Actions

/-- What is promised of the mailbox between two actions. -/
structure Settled (s : ToolReplyMailbox) : Prop where
  /-- A wait has settled, once, or it holds one place. -/
  once : (s.settled.map Prod.fst).Nodup
  settles : ∀ w < s.asks.length, w ∈ s.settled.map Prod.fst ↔ ¬ s.Waiting w
  place : ∀ w p q, s.entry p = some w → s.entry q = some w → p = q
  /-- Who waits listens to its signal, once, and no one else does. -/
  listeners : s.listeners.Nodup ∧ ∀ l, l ∈ s.listeners ↔ s.entry l.place = some l.wait ∧
    (s.asks[l.wait]?).map Ask.signal = some l.signal
  /-- No one waits on an aborted signal. -/
  live : Live s
  /-- An execution is settled by a result that was read, or by a failure before the start. -/
  executions : ∀ w, w ∈ s.executions ↔ ∃ outcome, (w, outcome) ∈ s.settled ∧ outcome.ends = true

theorem Sound.settled {s : ToolReplyMailbox} (h : Sound s) (hlive : Live s) : Settled s where
  once := h.once
  settles w hw := ⟨fun hs hwait => h.waits w hwait hs, fun hnot => (h.every w hw).resolve_right hnot⟩
  place _ _ _ hp hq := h.place_eq hq hp
  listeners := ⟨h.listenOnce, h.listener⟩
  live := hlive
  executions := h.executions

end ToolReplyMailbox

namespace ToolReplyMailbox.Example

def call : Json := .str (ascii "call_1")

def result : Json := .obj [(ascii "toolCallId", call), (ascii "toolName", .str (ascii "bash")),
  (ascii "result", .obj [(ascii "content", .arr [])]), (ascii "isError", .bool false)]

def reply : WorkerReply := .tool [(ascii "kind", .str (ascii "tool_result")),
  (ascii "operationId", .str (ascii "op")), (ascii "sequence", .num 1), (ascii "result", result)]

/-- Two calls wait on signal 0, a probe on signal 1; the reply to the first comes twice, then the
signal of the second is aborted. -/
def actions : List Action :=
  [.wait (ascii "op") (ascii "call_1") (ascii "bash") 0,
    .wait (ascii "other") (ascii "call_1") (ascii "bash") 0,
    .waitProbe (ascii "probe") (ascii "a") 1, .accept reply, .accept reply, .abort 0]

def final : ToolReplyMailbox := actions.foldl (act List.length) initial

theorem final_reach : Reach (mailboxes List.length) actions final :=
  Reach.foldlM (fun _ _ _ h => (Option.some.inj h).symm) (.init rfl) actions
    (List.foldlM_pure ..)

end ToolReplyMailbox.Example

end EventLog
end PiCloud
