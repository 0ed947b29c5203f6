import Mathlib.Data.List.Sort
import PiCloud.Lib.Run
import PiCloud.Lib.Search
import PiCloud.Runtime.TurnProjection

/-!
# Runtime.CompactEventTail

The tail of a session that the projection has not covered, with adjacent text deltas merged.

* `CompactEventTail`: `accept`, `mergeAt` and `cover` over the list of spans.
* `Spans`: how the spans split the plain list of events; `accept` keeps it, and so does a cover
  that falls between two spans.
* `projectEvents_spans`: projecting the spans and projecting the plain list agree, except for the
  first sequence of a merged text.
-/

namespace PiCloud
namespace Runtime

open Lib Protocol

structure Span where
  event : PiCloudEvent
  first : Nat
  bytes : Nat
  envelopeBytes : Nat

namespace Span

/-- A span of one event; `envelope` is the size of an event's JSON with its text left out. -/
def ofEvent (envelope : PiCloudEvent → Nat) (event : PiCloudEvent) : Span where
  event := event
  first := event.seq
  bytes := envelope event + match event.body with
    | .assistantTextDelta delta => (utf8Bytes delta.text)
    | _ => 0
  envelopeBytes := envelope event

def canMerge (left right : Span) : Bool :=
  match left.event.body, right.event.body with
  | .assistantTextDelta l, .assistantTextDelta r =>
    -- identities are never empty, so an identity is truthy when there is one
    !(l.settledMessageId.isSome || l.replace == some true || r.replace == some true ||
      l.messageId != r.messageId || (l.phase == some .commentary && l.messageId.isNone) ||
      l.phase != r.phase || left.event.turnId != right.event.turnId ||
      left.event.sessionId != right.event.sessionId || left.event.seq + 1 != right.first)
  | _, _ => false

def mergedEvent (left right : PiCloudEvent) : PiCloudEvent :=
  match left.body, right.body with
  | .assistantTextDelta l, .assistantTextDelta r =>
    { right with body := .assistantTextDelta { r with text := l.text ++ r.text } }
  | _, _ => right

def merge (left right : Span) : Span where
  event := mergedEvent left.event right.event
  first := left.first
  bytes := left.bytes + right.bytes - left.envelopeBytes
  envelopeBytes := right.envelopeBytes

end Span

/-- `#merge`: the spans with the one at `i` and the next joined, where they may be. -/
def mergeAt (spans : List Span) (i : Nat) : Option (List Span) :=
  match spans[i]?, spans[i + 1]? with
  | some left, some right =>
    if left.canMerge right then some (spans.take i ++ left.merge right :: spans.drop (i + 2))
    else none
  | _, _ => none

structure CompactEventTail where
  spans : List Span := []
  /-- event identities by sequence -/
  ids : List (Nat × JsString) := []
  covered : Nat := 0
  high : Nat := 0

namespace CompactEventTail

def highWaterMark (t : CompactEventTail) : Nat := max t.high t.covered

def events (t : CompactEventTail) : List PiCloudEvent := t.spans.map Span.event

def bytes (t : CompactEventTail) : Nat := (t.spans.map Span.bytes).sum

/-- Where an event of sequence `seq` goes: last, or found by binary search. -/
def position (spans : List Span) (seq : Nat) : Nat :=
  if spans.getLast?.any (fun s => seq < s.event.seq) then
    lowerBound (fun i => spans[i]?.any (fun s => s.event.seq < seq)) spans.length 0 spans.length
  else spans.length

/-- The spans with `span` at `i`, merged with the one before it and the one after. -/
def insertAt (spans : List Span) (i : Nat) (span : Span) : List Span :=
  let spans := spans.take i ++ span :: spans.drop i
  match (if 0 < i then mergeAt spans (i - 1) else none) with
  | some merged => (mergeAt merged (i - 1)).getD merged
  | none => (mergeAt spans i).getD spans

inductive Conflict where
  /-- "Conflicting events in Session projection" -/
  | conflictingEvents

def accept (envelope : PiCloudEvent → Nat) (t : CompactEventTail) (event : PiCloudEvent) :
    Except Conflict (Bool × CompactEventTail) :=
  if event.seq ≤ t.covered then .ok (false, t)
  else
    match t.ids.lookup event.seq with
    | some prior => if prior ≠ event.eventId then .error .conflictingEvents else .ok (false, t)
    | none =>
      .ok (true, { t with
        ids := (event.seq, event.eventId) :: t.ids
        high := max t.high event.seq
        spans := insertAt t.spans (position t.spans event.seq) (.ofEvent envelope event) })

def cover (t : CompactEventTail) (through : Nat) : CompactEventTail :=
  { t with
    covered := max t.covered through
    spans := t.spans.filter (fun s => max t.covered through < s.event.seq)
    ids := t.ids.filter (fun p => max t.covered through < p.1) }

end CompactEventTail

/-! ## Spans and the events they stand for -/

/-- `es` are the events merged into the span, in order. -/
inductive SpanOf : Span → List PiCloudEvent → Prop where
  | single {s : Span} : s.first = s.event.seq → SpanOf s [s.event]
  | merge {l r : Span} {as bs : List PiCloudEvent} : SpanOf l as → SpanOf r bs →
      l.canMerge r = true → SpanOf (l.merge r) (as ++ bs)

inductive Spans : List Span → List PiCloudEvent → Prop where
  | nil : Spans [] []
  | cons {s : Span} {ss : List Span} {as bs : List PiCloudEvent} : SpanOf s as → Spans ss bs →
      Spans (s :: ss) (as ++ bs)

theorem canMerge_adjacent {l r : Span} (h : l.canMerge r = true) :
    l.event.seq + 1 = r.first := by
  unfold Span.canMerge at h
  split at h
  · simp at h; omega
  · cases h

theorem mergedEvent_seq (l r : PiCloudEvent) : (Span.mergedEvent l r).seq = r.seq := by
  unfold Span.mergedEvent
  split <;> rfl

theorem SpanOf.range {s : Span} {es : List PiCloudEvent} (h : SpanOf s es) :
    s.first ≤ s.event.seq ∧ (∀ e ∈ es, s.first ≤ e.seq ∧ e.seq ≤ s.event.seq) ∧
      ∀ n, s.first ≤ n → n ≤ s.event.seq → ∃ e ∈ es, e.seq = n := by
  induction h with
  | @single s hs =>
    refine ⟨by omega, ?_, fun n h1 h2 => ⟨s.event, by simp, by omega⟩⟩
    intro e he
    rw [List.mem_singleton.mp he]
    omega
  | @merge l r as bs _ _ hm ihl ihr =>
    have hadj := canMerge_adjacent hm
    obtain ⟨hl, hle, hlx⟩ := ihl
    obtain ⟨hr, hre, hrx⟩ := ihr
    have hseq : (l.merge r).event.seq = r.event.seq := mergedEvent_seq _ _
    rw [hseq]
    show l.first ≤ r.event.seq ∧ (∀ e ∈ as ++ bs, l.first ≤ e.seq ∧ e.seq ≤ r.event.seq) ∧
      ∀ n, l.first ≤ n → n ≤ r.event.seq → ∃ e ∈ as ++ bs, e.seq = n
    refine ⟨by omega, ?_, fun n h1 h2 => ?_⟩
    · intro e he
      rcases List.mem_append.mp he with he | he
      · have := hle e he; omega
      · have := hre e he; omega
    · by_cases hn : n ≤ l.event.seq
      · obtain ⟨e, he, hs⟩ := hlx n h1 hn
        exact ⟨e, List.mem_append_left _ he, hs⟩
      · obtain ⟨e, he, hs⟩ := hrx n (by omega) h2
        exact ⟨e, List.mem_append_right _ he, hs⟩

theorem Spans.append {ss ts : List Span} {as bs : List PiCloudEvent} (h : Spans ss as)
    (ht : Spans ts bs) : Spans (ss ++ ts) (as ++ bs) := by
  induction h with
  | nil => exact ht
  | cons hs _ ih => rw [List.append_assoc]; exact .cons hs ih

theorem Spans.split {ss ts : List Span} {es : List PiCloudEvent} (h : Spans (ss ++ ts) es) :
    ∃ as bs, es = as ++ bs ∧ Spans ss as ∧ Spans ts bs := by
  induction ss generalizing es with
  | nil => exact ⟨[], es, rfl, .nil, h⟩
  | cons s ss ih =>
    rw [List.cons_append] at h
    cases h with
    | cons hs hss =>
      obtain ⟨as, bs, rfl, ha, hb⟩ := ih hss
      exact ⟨_, bs, (List.append_assoc ..).symm, .cons hs ha, hb⟩

theorem Spans.ends {ss : List Span} {es : List PiCloudEvent} (h : Spans ss es) {s : Span}
    (hs : s ∈ ss) : (∃ e ∈ es, e.seq = s.first) ∧ ∃ e ∈ es, e.seq = s.event.seq := by
  induction h with
  | nil => cases hs
  | @cons t ss as bs ht _ ih =>
    rcases List.mem_cons.mp hs with rfl | hs
    · obtain ⟨hord, _, hfull⟩ := ht.range
      obtain ⟨e, he, hn⟩ := hfull _ (Nat.le_refl _) hord
      obtain ⟨f, hf, hm⟩ := hfull _ hord (Nat.le_refl _)
      exact ⟨⟨e, List.mem_append_left _ he, hn⟩, f, List.mem_append_left _ hf, hm⟩
    · obtain ⟨⟨e, he, hn⟩, f, hf, hm⟩ := ih hs
      exact ⟨⟨e, List.mem_append_right _ he, hn⟩, f, List.mem_append_right _ hf, hm⟩

theorem mergeAt_some {ss ts : List Span} {i : Nat} (hm : mergeAt ss i = some ts) :
    ∃ before, ∃ l r : Span, ∃ after, ss = before ++ l :: r :: after ∧ ts = before ++ l.merge r :: after ∧
      l.canMerge r = true := by
  unfold mergeAt at hm
  split at hm
  · rename_i l r hl hr
    split at hm
    · rename_i hcan
      cases hm
      have hss : ss = ss.take i ++ l :: r :: ss.drop (i + 2) := by
        rw [← (List.getElem?_eq_some_iff.mp hl).2, ← (List.getElem?_eq_some_iff.mp hr).2,
          List.getElem_cons_drop, List.getElem_cons_drop, List.take_append_drop]
      exact ⟨ss.take i, l, r, ss.drop (i + 2), hss, rfl, hcan⟩
    · cases hm
  · cases hm

theorem mergeAt_spans {ss ts : List Span} {i : Nat} {es : List PiCloudEvent} (h : Spans ss es)
    (hm : mergeAt ss i = some ts) : Spans ts es := by
  obtain ⟨before, l, r, after, rfl, rfl, hcan⟩ := mergeAt_some hm
  obtain ⟨as, bs, rfl, ha, hb⟩ := h.split
  cases hb with
  | @cons _ _ ls _ hsl hb =>
    cases hb with
    | @cons _ _ rs bs hsr hb =>
      rw [← List.append_assoc ls rs bs]
      exact ha.append (.cons (.merge hsl hsr hcan) hb)

theorem insertAt_keeps {P : List Span → Prop}
    (hmerge : ∀ us vs i, P us → mergeAt us i = some vs → P vs) {ss ts : List Span} {s : Span}
    (h : P (ss ++ s :: ts)) : P (CompactEventTail.insertAt (ss ++ ts) ss.length s) := by
  have hgetD : ∀ us i, P us → P ((mergeAt us i).getD us) := by
    intro us i hu
    cases hm : mergeAt us i with
    | none => exact hu
    | some vs => exact hmerge us vs i hu hm
  unfold CompactEventTail.insertAt
  rw [List.take_left, List.drop_left]
  dsimp only
  split
  · rename_i merged hm
    split at hm
    · exact hgetD _ _ (hmerge _ _ _ h hm)
    · cases hm
  · exact hgetD _ _ h

theorem insertAt_spans {ss ts : List Span} {as bs : List PiCloudEvent} {s : Span}
    {e : PiCloudEvent} (ha : Spans ss as) (hs : SpanOf s [e]) (hb : Spans ts bs) :
    Spans (CompactEventTail.insertAt (ss ++ ts) ss.length s) (as ++ e :: bs) :=
  insertAt_keeps (fun _ _ _ => mergeAt_spans) (ha.append (.cons hs hb))

theorem position_eq {ss ts : List Span} {seq : Nat} (hs : ∀ s ∈ ss, s.event.seq < seq)
    (ht : ∀ t ∈ ts, seq < t.event.seq) :
    CompactEventTail.position (ss ++ ts) seq = ss.length := by
  unfold CompactEventTail.position
  split
  · refine lowerBound_eq (fun i hi => ?_) (fun i hi => ?_) _ _ _ (Nat.zero_le _) (by simp) (by simp)
    · rw [List.getElem?_append_left hi, List.getElem?_eq_getElem hi]
      simpa using hs _ (List.getElem_mem hi)
    · rw [List.getElem?_append_right hi]
      cases hget : ts[i - ss.length]? with
      | none => rfl
      | some t =>
        have := ht t (List.mem_of_getElem? hget)
        simp only [Option.any_some, decide_eq_false_iff_not]
        omega
  · rename_i hlast
    rcases List.eq_nil_or_concat ts with rfl | ⟨init, t, rfl⟩
    · simp
    · rw [List.concat_eq_append] at ht hlast
      rw [← List.append_assoc] at hlast
      simp [ht t (by simp)] at hlast

/-! ## What the tail holds -/

instance : Std.Total (fun a b : PiCloudEvent => a.seq ≤ b.seq) := ⟨fun _ _ => Nat.le_total _ _⟩

instance : IsTrans PiCloudEvent (fun a b => a.seq ≤ b.seq) := ⟨fun _ _ _ => Nat.le_trans⟩

def uncovered (accepted : List PiCloudEvent) (covered : Nat) : List PiCloudEvent :=
  (accepted.filter (fun e => covered < e.seq)).insertionSort (fun a b => a.seq ≤ b.seq)

/-- The tail stands for `es`, the uncovered ones of the accepted events. -/
structure Stands (t : CompactEventTail) (accepted es : List PiCloudEvent) : Prop where
  spans : Spans t.spans es
  sorted : es.Pairwise (fun a b => a.seq < b.seq)
  perm : es.Perm (accepted.filter (fun e => t.covered < e.seq))
  ids : ∀ seq, (∃ e ∈ es, e.seq = seq) ↔ ∃ p ∈ t.ids, p.1 = seq

theorem eq_of_seq_eq {es : List PiCloudEvent} (h : es.Pairwise (fun a b => a.seq < b.seq))
    {a b : PiCloudEvent} (ha : a ∈ es) (hb : b ∈ es) (hs : a.seq = b.seq) : a = b := by
  have hnodup : (es.map PiCloudEvent.seq).Nodup :=
    List.pairwise_map.mpr (h.imp Nat.ne_of_lt)
  exact List.inj_on_of_nodup_map hnodup ha hb hs

theorem Stands.uncovered_eq {t : CompactEventTail} {accepted es : List PiCloudEvent}
    (h : Stands t accepted es) : uncovered accepted t.covered = es := by
  have hperm := (List.perm_insertionSort (fun a b : PiCloudEvent => a.seq ≤ b.seq) _).trans
    h.perm.symm
  have hanti : ∀ a b : PiCloudEvent, a ∈ uncovered accepted t.covered → b ∈ es →
      a.seq ≤ b.seq → b.seq ≤ a.seq → a = b := by
    intro a b ha hb hab hba
    exact eq_of_seq_eq h.sorted (hperm.mem_iff.mp ha) hb (Nat.le_antisymm hab hba)
  exact hperm.eq_of_pairwise hanti (List.pairwise_insertionSort _ _)
    (h.sorted.imp Nat.le_of_lt)

theorem stands_empty : Stands {} [] [] where
  spans := .nil
  sorted := .nil
  perm := .refl _
  ids seq := by simp

theorem Spans.around {ss : List Span} {es : List PiCloudEvent} (h : Spans ss es)
    (hsort : es.Pairwise (fun a b => a.seq < b.seq)) {seq : Nat} (hnew : ∀ e ∈ es, e.seq ≠ seq) :
    ∃ ls rs as bs, ss = ls ++ rs ∧ es = as ++ bs ∧ Spans ls as ∧ Spans rs bs ∧
      (∀ s ∈ ls, s.event.seq < seq) ∧ (∀ s ∈ rs, seq < s.event.seq) ∧
      (∀ e ∈ as, e.seq < seq) ∧ ∀ e ∈ bs, seq < e.seq := by
  induction h with
  | nil => exact ⟨[], [], [], [], rfl, rfl, .nil, .nil, by simp, by simp, by simp, by simp⟩
  | @cons s ss as bs hs hss ih =>
    obtain ⟨hord, hmem, hfull⟩ := hs.range
    have hgap : ¬(s.first ≤ seq ∧ seq ≤ s.event.seq) := by
      intro ⟨h1, h2⟩
      obtain ⟨e, he, heq⟩ := hfull seq h1 h2
      exact hnew e (List.mem_append_left _ he) heq
    have hsplit := List.pairwise_append.mp hsort
    by_cases hlt : s.event.seq < seq
    · obtain ⟨ls, rs, as', bs', rfl, rfl, hl, hr, h1, h2, h3, h4⟩ :=
        ih hsplit.2.1 (fun e he => hnew e (List.mem_append_right _ he))
      refine ⟨s :: ls, rs, as ++ as', bs', rfl, (List.append_assoc ..).symm, .cons hs hl, hr,
        ?_, h2, ?_, h4⟩
      · intro t ht
        rcases List.mem_cons.mp ht with rfl | ht
        · exact hlt
        · exact h1 t ht
      · intro e he
        rcases List.mem_append.mp he with he | he
        · have := hmem e he; omega
        · exact h3 e he
    · obtain ⟨last, hlast, hseq⟩ := hfull _ hord (Nat.le_refl _)
      have hafter : ∀ e ∈ as ++ bs, seq < e.seq := by
        intro e he
        rcases List.mem_append.mp he with he | he
        · have := hmem e he; omega
        · have := hsplit.2.2 last hlast e he; omega
      refine ⟨[], s :: ss, [], as ++ bs, rfl, rfl, .nil, .cons hs hss, by simp, ?_, by simp, hafter⟩
      intro t ht
      rcases List.mem_cons.mp ht with rfl | ht
      · have := hafter last (List.mem_append_left _ hlast); omega
      · obtain ⟨_, e, he, heq⟩ := hss.ends ht
        have := hafter e (List.mem_append_right _ he)
        omega

theorem accept_stands {envelope : PiCloudEvent → Nat} {t u : CompactEventTail}
    {accepted es : List PiCloudEvent} {event : PiCloudEvent} {fresh : Bool}
    (h : Stands t accepted es) (ha : t.accept envelope event = .ok (fresh, u)) :
    ∃ es', Stands u (if fresh then accepted ++ [event] else accepted) es' := by
  unfold CompactEventTail.accept at ha
  split at ha
  · cases ha; exact ⟨es, h⟩
  · rename_i hcov
    split at ha
    · split at ha
      · cases ha
      · cases ha; exact ⟨es, h⟩
    · rename_i hids
      cases ha
      have hnew : ∀ e ∈ es, e.seq ≠ event.seq := by
        intro e he heq
        obtain ⟨p, hp, hseq⟩ := (h.ids event.seq).mp ⟨e, he, heq⟩
        have := List.lookup_eq_none_iff.mp hids p hp
        simp [hseq] at this
      obtain ⟨ls, rs, as, bs, hspans, rfl, hl, hr, h1, h2, h3, h4⟩ := h.spans.around h.sorted hnew
      refine ⟨as ++ event :: bs, ?_, ?_, ?_, ?_⟩
      · show Spans (CompactEventTail.insertAt t.spans _ _) _
        rw [hspans, position_eq h1 h2]
        exact insertAt_spans hl (.single rfl) hr
      · have hs := List.pairwise_append.mp h.sorted
        refine List.pairwise_append.mpr ⟨hs.1, List.pairwise_cons.mpr ⟨h4, hs.2.1⟩, ?_⟩
        intro a ha b hb
        rcases List.mem_cons.mp hb with rfl | hb
        · exact h3 a ha
        · exact hs.2.2 a ha b hb
      · have hfilter : (accepted ++ [event]).filter (fun e => t.covered < e.seq) =
            accepted.filter (fun e => t.covered < e.seq) ++ [event] := by
          simp [List.filter_append, Nat.lt_of_not_le hcov]
        show (as ++ event :: bs).Perm ((accepted ++ [event]).filter _)
        rw [hfilter]
        exact List.perm_middle.trans ((h.perm.cons event).trans (List.perm_append_singleton ..).symm)
      · intro seq
        have := h.ids seq
        simp only [List.mem_append, List.mem_cons] at this ⊢
        grind

/-- A cover keeps whole spans only: none starts at or before the covered sequence and ends after
it. -/
def Aligned (t : CompactEventTail) (through : Nat) : Prop :=
  ∀ s ∈ t.spans, ¬(s.first ≤ through ∧ through < s.event.seq)

theorem Spans.filter {ss : List Span} {es : List PiCloudEvent} (h : Spans ss es) {n : Nat}
    (hn : ∀ s ∈ ss, ¬(s.first ≤ n ∧ n < s.event.seq)) :
    Spans (ss.filter (fun s => n < s.event.seq)) (es.filter (fun e => n < e.seq)) := by
  induction h with
  | nil => exact .nil
  | @cons s ss as bs hs _ ih =>
    have hrest := ih (fun t ht => hn t (List.mem_cons_of_mem _ ht))
    have hcut := hn s (List.mem_cons_self ..)
    have hmem := hs.range.2.1
    rw [List.filter_append]
    by_cases hlt : n < s.event.seq
    · have hall : as.filter (fun e => n < e.seq) = as := by
        rw [List.filter_eq_self]
        intro e he
        have := hmem e he
        simp only [decide_eq_true_eq]
        omega
      rw [List.filter_cons_of_pos (by simpa using hlt), hall]
      exact .cons hs hrest
    · have hnone : as.filter (fun e => n < e.seq) = [] := by
        rw [List.filter_eq_nil_iff]
        intro e he
        have := hmem e he
        simp only [decide_eq_true_eq]
        omega
      rw [List.filter_cons_of_neg (by simpa using hlt), hnone]
      exact hrest

theorem cover_stands {t : CompactEventTail} {accepted es : List PiCloudEvent} {through : Nat}
    (h : Stands t accepted es) (ha : Aligned t through) :
    Stands (t.cover through) accepted (es.filter (fun e => max t.covered through < e.seq)) := by
  have hes : ∀ e ∈ es, t.covered < e.seq := by
    intro e he
    have := h.perm.mem_iff.mp he
    simpa using (List.mem_filter.mp this).2
  refine ⟨h.spans.filter ?_, h.sorted.filter _, ?_, ?_⟩
  · intro s hs
    have := ha s hs
    obtain ⟨e, he, hseq⟩ := (h.spans.ends hs).1
    have := hes e he
    omega
  · show (es.filter _).Perm (accepted.filter (fun e => max t.covered through < e.seq))
    refine (h.perm.filter _).trans (List.Perm.of_eq ?_)
    rw [List.filter_filter]
    congr 1
    funext e
    rw [← Bool.decide_and, decide_eq_decide]
    omega
  · intro seq
    have := h.ids seq
    show _ ↔ ∃ p ∈ t.ids.filter _, _
    simp only [List.mem_filter]
    grind

/-! ## Projecting the tail -/

/-- An item without the first sequence of a text. -/
def blurFirst (item : ConversationTranscriptItem) : ConversationTranscriptItem :=
  item.mapBody (fun b => match b with
    | .text i => .text { i with firstSequence := 0 }
    | b => b)

theorem blurs_first : Blurs blurFirst := by
  constructor <;> intros <;> rename_i x <;> obtain ⟨cursor, body⟩ := x <;> cases body <;> rfl

def Projection.blurFirst (p : Projection) : Projection :=
  { p with items := p.items.map Runtime.blurFirst }

theorem apply_blurFirst (n : Option Nat) (p : Projection) (e : PiCloudEvent) :
    (p.blurFirst.apply n e).blurFirst = (p.apply n e).blurFirst := by
  unfold Projection.apply Projection.note Projection.blurFirst
  cases e.body <;> simp only [projectItems_blur blurs_first]

theorem modify_length_append {α : Type} (f : α → α) (xs : List α) (x : α) :
    (xs ++ [x]).modify xs.length f = xs ++ [f x] := by
  induction xs with
  | nil => rfl
  | cons y ys ih => simpa using ih

theorem findItem_modify {p : ItemBody → Bool}
    {f : ConversationTranscriptItem → ConversationTranscriptItem}
    (hp : ∀ x, p (f x).body = p x.body) (items : Items) (i : Nat) :
    findItem p (items.modify i f) = findItem p items := by
  unfold findItem
  induction items generalizing i with
  | nil => simp
  | cons x xs ih =>
    cases i with
    | zero => simp [List.findIdx?_cons, hp]
    | succ i => simp [List.findIdx?_cons, ih]

/-- Two deltas that may be merged: the left one settles nothing and neither replaces anything. -/
structure Mergeable (l r : TextDelta) : Prop where
  settled : l.settledMessageId = none
  left : l.replace ≠ some true
  right : r.replace ≠ some true
  messageId : l.messageId = r.messageId
  phase : l.phase = r.phase
  commentary : l.messageId = none → l.phase ≠ some .commentary

/-- The delta that stands for `l` and then `r`. -/
def joinDelta (l r : TextDelta) : TextDelta := { r with text := l.text ++ r.text }

section Join

variable {l r : TextDelta}

theorem continuedBy_join (h : Mergeable l r) (b : ItemBody) :
    b.continuedBy r = b.continuedBy l ∧ b.continuedBy (joinDelta l r) = b.continuedBy l := by
  cases b <;> simp [ItemBody.continuedBy, joinDelta, h.messageId, h.phase]

theorem projectTextTail_concat (init : Items) (x : ConversationTranscriptItem) (d : TextDelta)
    (n : Nat) :
    projectTextTail (init ++ [x]) d n =
      if x.body.continuedBy d then init ++ [x.mapBody (.continueText d n)]
      else pushItem (init ++ [x]) (.text (.ofDelta d n)) := by
  unfold projectTextTail
  simp only [List.getLast?_concat, Option.any_some, List.length_append, List.length_singleton,
    Nat.add_sub_cancel, modify_length_append]

theorem projectTextTail_opened (h : Mergeable l r) (hid : l.messageId = none) (init : Items)
    (m n : Nat) :
    (projectTextTail (pushItem init (.text (.ofDelta l m))) r n).map blurFirst =
      (pushItem init (.text (.ofDelta (joinDelta l r) n))).map blurFirst := by
  have hphase := h.commentary hid
  have hcont : ItemBody.continuedBy r (.text (.ofDelta l m)) = true := by
    simp [ItemBody.continuedBy, TextItem.ofDelta, ← h.messageId, ← h.phase, hid, hphase]
  unfold pushItem
  rw [projectTextTail_concat, if_pos hcont]
  simp [blurFirst, ConversationTranscriptItem.mapBody, ItemBody.continueText, TextItem.ofDelta,
    joinDelta, ← h.messageId, ← h.phase, hid]

theorem projectTextTail_join (h : Mergeable l r) (hid : l.messageId = none) (items : Items)
    (m n : Nat) :
    (projectTextTail (projectTextTail items l m) r n).map blurFirst =
      (projectTextTail items (joinDelta l r) n).map blurFirst := by
  rcases List.eq_nil_or_concat items with rfl | ⟨init, x, rfl⟩
  · exact projectTextTail_opened h hid [] m n
  · rw [List.concat_eq_append, projectTextTail_concat, projectTextTail_concat,
      (continuedBy_join h _).2]
    split
    · rename_i hx
      obtain ⟨cursor, body⟩ := x
      cases body with
      | text i =>
        have hx' : ItemBody.continuedBy r (ItemBody.continueText l m (.text i)) = true := by
          rw [(continuedBy_join h _).1]; exact hx
        simp only [ConversationTranscriptItem.mapBody]
        rw [projectTextTail_concat, if_pos hx']
        simp [ConversationTranscriptItem.mapBody, ItemBody.continueText, joinDelta]
      | _ => cases hx
    · exact projectTextTail_opened h hid _ m n

theorem extendText_join (h : Mergeable l r) (m n : Nat) (b : ItemBody) :
    ItemBody.extendText r n (ItemBody.extendText l m b) =
      ItemBody.extendText (joinDelta l r) n b := by
  cases b with
  | text i =>
    have hr := h.right
    have hl := h.left
    simp only [ItemBody.extendText, TextItem.extend, joinDelta, if_neg hl, if_neg hr, h.settled,
      List.append_assoc, ← h.phase]
    cases l.phase <;> rfl
  | _ => rfl

theorem projectTextTail_identified {d : TextDelta} {k : JsString} (hd : d.messageId = some k)
    (items : Items) (n : Nat) :
    projectTextTail items d n = pushItem items (.text (.ofDelta d n)) := by
  have hnot : ∀ b, ItemBody.continuedBy d b = false := by
    intro b
    cases b <;> simp [ItemBody.continuedBy, hd]
  unfold projectTextTail
  rw [if_neg]
  cases items.getLast? with
  | none => simp
  | some last => simp [hnot]

theorem isText_extendText {d : TextDelta} (hd : d.settledMessageId = none) (k : JsString) (n : Nat)
    (x : ConversationTranscriptItem) :
    (x.mapBody (.extendText d n)).body.isText k = x.body.isText k := by
  obtain ⟨cursor, body⟩ := x
  cases body with
  | text i =>
    simp [ConversationTranscriptItem.mapBody, ItemBody.extendText, TextItem.extend,
      ItemBody.isText, hd]
  | _ => rfl

theorem projectText_join (h : Mergeable l r) (items : Items) (m n : Nat) :
    (projectText (projectText items l m) r n).map blurFirst =
      (projectText items (joinDelta l r) n).map blurFirst := by
  have hjoin : (joinDelta l r).messageId = r.messageId := rfl
  unfold projectText
  rw [hjoin, ← h.messageId]
  cases hid : l.messageId with
  | none => exact projectTextTail_join h hid items m n
  | some k =>
    have hr : r.messageId = some k := by rw [← h.messageId]; exact hid
    cases hfind : findItem (ItemBody.isText k) items with
    | some i =>
      simp only [hfind, findItem_modify (isText_extendText h.settled k m), List.modify_modify_eq]
      congr 2
      funext x
      simp [ConversationTranscriptItem.mapBody, extendText_join h]
    | none =>
      have hopened : findItem (ItemBody.isText k) (pushItem items (.text (.ofDelta l m))) =
          some items.length := by
        unfold findItem at hfind ⊢
        rw [pushItem, List.findIdx?_append, hfind]
        simp [ItemBody.isText, TextItem.ofDelta, hid, h.settled]
      simp only [hfind, projectTextTail_identified hid, projectTextTail_identified (hjoin.trans hr),
        hopened]
      unfold pushItem
      rw [modify_length_append]
      simp only [List.map_append]
      congr 1
      have hl := h.left
      have hre := h.right
      simp only [List.map_cons, List.map_nil, ConversationTranscriptItem.mapBody,
        ItemBody.extendText, TextItem.extend, TextItem.ofDelta, joinDelta, blurFirst, hid, hr,
        h.settled, if_neg hre, ← h.phase]
      cases r.settledMessageId <;> cases l.phase <;> rfl

end Join

/-! ## Spans project to what their events project to -/

theorem canMerge_cases {s t : Span} (h : s.canMerge t = true) :
    ∃ l r, s.event.body = .assistantTextDelta l ∧ t.event.body = .assistantTextDelta r ∧
      Mergeable l r ∧ s.event.turnId = t.event.turnId ∧ s.event.sessionId = t.event.sessionId := by
  unfold Span.canMerge at h
  split at h
  · rename_i l r hl hr
    simp only [Bool.not_eq_eq_eq_not, Bool.not_true, Bool.or_eq_false_iff, Option.isSome_eq_false_iff,
      Option.isNone_iff_eq_none, beq_eq_false_iff_ne, bne_eq_false_iff_eq, Bool.and_eq_false_imp,
      beq_iff_eq] at h
    obtain ⟨⟨⟨⟨⟨⟨⟨⟨hset, hlr⟩, hrr⟩, hid⟩, hcom⟩, hph⟩, hturn⟩, hsess⟩, _⟩ := h
    refine ⟨l, r, hl, hr, ⟨hset, hlr, hrr, hid, hph, fun hnone hc => ?_⟩, hturn, hsess⟩
    have := hcom hc
    rw [hnone] at this
    cases this
  · cases h

theorem apply_delta {e : PiCloudEvent} {d : TextDelta} (h : e.body = .assistantTextDelta d)
    (n : Option Nat) (p : Projection) :
    p.apply n e = { p with items := projectText p.items d e.seq, previousSequence := e.seq } := by
  unfold Projection.apply Projection.note projectItems
  rw [h]

theorem apply_merged {s t : Span} (h : s.canMerge t = true) (n : Option Nat) (p : Projection) :
    ((p.apply n s.event).apply n t.event).blurFirst =
      (p.apply n (Span.mergedEvent s.event t.event)).blurFirst := by
  obtain ⟨l, r, hl, hr, hm, _⟩ := canMerge_cases h
  have hmerged : Span.mergedEvent s.event t.event =
      { t.event with body := .assistantTextDelta (joinDelta l r) } := by
    unfold Span.mergedEvent
    rw [hl, hr]
    rfl
  rw [hmerged, apply_delta hl, apply_delta hr, apply_delta (d := joinDelta l r) rfl]
  simp only [Projection.blurFirst, projectText_join hm]

theorem foldl_apply_blurFirst (n : Option Nat) (es : List PiCloudEvent) {p q : Projection}
    (h : p.blurFirst = q.blurFirst) :
    (es.foldl (Projection.apply n) p).blurFirst = (es.foldl (Projection.apply n) q).blurFirst := by
  induction es generalizing p q with
  | nil => exact h
  | cons e es ih =>
    refine ih ?_
    rw [← apply_blurFirst n p, ← apply_blurFirst n q, h]

theorem SpanOf.project {s : Span} {es : List PiCloudEvent} (h : SpanOf s es) (n : Option Nat)
    (p : Projection) :
    (es.foldl (Projection.apply n) p).blurFirst = (p.apply n s.event).blurFirst := by
  induction h generalizing p with
  | single _ => rfl
  | @merge l r as bs _ _ hm ihl ihr =>
    rw [List.foldl_append]
    calc (bs.foldl (Projection.apply n) (as.foldl (Projection.apply n) p)).blurFirst
        = (bs.foldl (Projection.apply n) (p.apply n l.event)).blurFirst :=
          foldl_apply_blurFirst n bs (ihl p)
      _ = ((p.apply n l.event).apply n r.event).blurFirst := ihr _
      _ = (p.apply n (l.merge r).event).blurFirst := apply_merged hm n p

theorem Spans.project {ss : List Span} {es : List PiCloudEvent} (h : Spans ss es) (n : Option Nat)
    (p : Projection) :
    ((ss.map Span.event).foldl (Projection.apply n) p).blurFirst =
      (es.foldl (Projection.apply n) p).blurFirst := by
  induction h generalizing p with
  | nil => rfl
  | @cons s ss as bs hs _ ih =>
    rw [List.map_cons, List.foldl_cons, List.foldl_append, ih]
    exact foldl_apply_blurFirst n bs (hs.project n p).symm

theorem SpanOf.shares {s : Span} {es : List PiCloudEvent} (h : SpanOf s es)
    (first : PiCloudEvent) : (∀ e ∈ es, Shares first e) ↔ Shares first s.event := by
  induction h with
  | single _ => simp
  | @merge l r as bs _ _ hm ihl ihr =>
    obtain ⟨ld, rd, hl, hr, _, hturn, hsess⟩ := canMerge_cases hm
    have hmerged : Shares first (l.merge r).event ↔ Shares first r.event := by
      show Shares first (Span.mergedEvent l.event r.event) ↔ _
      unfold Span.mergedEvent
      rw [hl, hr]
      rfl
    have hboth : Shares first l.event ↔ Shares first r.event := by
      unfold Shares
      rw [hturn, hsess]
    rw [hmerged, List.forall_mem_append, ihl, ihr, hboth, and_self]

theorem Spans.shares {ss : List Span} {es : List PiCloudEvent} (h : Spans ss es)
    (first : PiCloudEvent) :
    (∀ e ∈ es, Shares first e) ↔ ∀ e ∈ ss.map Span.event, Shares first e := by
  induction h with
  | nil => simp
  | cons hs _ ih =>
    rw [List.forall_mem_append, hs.shares first, ih, List.map_cons, List.forall_mem_cons]

theorem Spans.sorted {ss : List Span} {es : List PiCloudEvent} (h : Spans ss es)
    (hs : es.Pairwise (fun a b => a.seq < b.seq)) :
    (ss.map Span.event).Pairwise (fun a b => a.seq < b.seq) := by
  induction h with
  | nil => exact .nil
  | @cons s ss as bs hs' hss ih =>
    obtain ⟨h1, h2, h3⟩ := List.pairwise_append.mp hs
    obtain ⟨hord, _, hfull⟩ := hs'.range
    obtain ⟨a, ha, hseq⟩ := hfull _ hord (Nat.le_refl _)
    refine List.pairwise_cons.mpr ⟨fun e he => ?_, ih h2⟩
    obtain ⟨t, ht, rfl⟩ := List.mem_map.mp he
    obtain ⟨_, b, hb, hseq'⟩ := hss.ends ht
    have := h3 a ha b hb
    omega

theorem SpanOf.head {s : Span} {es : List PiCloudEvent} (h : SpanOf s es) :
    ∃ e rest, es = e :: rest ∧ e.sessionId = s.event.sessionId ∧ e.turnId = s.event.turnId := by
  cases es with
  | nil =>
    obtain ⟨_, _, hfull⟩ := h.range
    obtain ⟨e, he, _⟩ := hfull _ (Nat.le_refl _) h.range.1
    cases he
  | cons e rest =>
    have := (h.shares s.event).mpr ⟨rfl, rfl⟩ e (List.mem_cons_self ..)
    exact ⟨e, rest, rfl, this.1, this.2⟩

theorem Spans.last {ss : List Span} {es : List PiCloudEvent} (h : Spans ss es)
    (hs : es.Pairwise (fun a b => a.seq < b.seq)) :
    (ss.map Span.event).getLast?.map PiCloudEvent.seq = es.getLast?.map PiCloudEvent.seq := by
  rcases List.eq_nil_or_concat ss with rfl | ⟨init, s, rfl⟩
  · cases h; rfl
  · rw [List.concat_eq_append] at h ⊢
    obtain ⟨as, bs, rfl, _, hb⟩ := h.split
    cases hb with
    | @cons _ _ cs ds hc hd =>
      cases hd
      obtain ⟨hord, hmem, hfull⟩ := hc.range
      obtain ⟨a, ha, hseq⟩ := hfull _ hord (Nat.le_refl _)
      rw [List.append_nil] at hs ⊢
      rcases List.eq_nil_or_concat cs with rfl | ⟨front, z, rfl⟩
      · cases ha
      · rw [List.concat_eq_append] at hs ha hmem ⊢
        have hz := hmem z (by simp)
        have haz : a.seq ≤ z.seq := by
          rcases List.mem_append.mp ha with ha | ha
          · have := (List.pairwise_append.mp (List.pairwise_append.mp hs).2.1).2.2 a ha z (by simp)
            omega
          · rw [List.mem_singleton.mp ha]
        rw [← List.append_assoc, List.map_append, List.map_singleton, List.getLast?_concat,
          List.getLast?_concat]
        simp only [Option.map_some, Option.some.injEq]
        omega

def ConversationTurnTranscript.blurFirst (t : ConversationTurnTranscript) :
    ConversationTurnTranscript :=
  { t with items := t.items.map Runtime.blurFirst }

theorem parse_blurFirst {p q : Projection} (h : p.blurFirst = q.blurFirst) (n : Nat) :
    (parseConversationTurnTranscriptResource (p.finish n)).map ConversationTurnTranscript.blurFirst =
      (parseConversationTurnTranscriptResource (q.finish n)).map ConversationTurnTranscript.blurFirst := by
  have hitems : (finishItems p).map blurFirst = (finishItems q).map blurFirst := by
    rw [← finishItems_blur blurs_first p, ← finishItems_blur blurs_first q]
    exact congrArg (fun r => (finishItems r).map blurFirst) h
  have hlen : (finishItems p).length = (finishItems q).length := by
    simpa using congrArg List.length hitems
  have hfinish : (p.finish n).blurFirst = (q.finish n).blurFirst := by
    unfold Projection.blurFirst at h
    injection h with _ _ hst hterm hstop hfail hcan
    simp only [ConversationTurnTranscript.blurFirst, Projection.finish, hitems, hst, hterm, hstop,
      hfail, hcan]
  unfold parseConversationTurnTranscriptResource
  have hp : (p.finish n).items.length = (q.finish n).items.length := hlen
  rw [hp]
  split
  · exact congrArg Except.ok hfinish
  · rfl

theorem Spans.projectConversationTurnTranscript {ss : List Span} {es : List PiCloudEvent}
    (h : Spans ss es) (hs : es.Pairwise (fun a b => a.seq < b.seq))
    {base : Option ConversationTurnTranscript}
    (hb : ∀ e ∈ es, (Projection.ofBase base).previousSequence < e.seq) :
    (Runtime.projectConversationTurnTranscript (ss.map Span.event) base).map
        ConversationTurnTranscript.blurFirst =
      (Runtime.projectConversationTurnTranscript es base).map
        ConversationTurnTranscript.blurFirst := by
  have hsorted := h.sorted hs
  have hlast := h.last hs
  have hproj := h.project (base.map (fun b => b.items.length)) (.ofBase base)
  have hbase : ∀ e ∈ ss.map Span.event, (Projection.ofBase base).previousSequence < e.seq := by
    intro e he
    obtain ⟨s, hs, rfl⟩ := List.mem_map.mp he
    obtain ⟨_, a, ha, hseq⟩ := h.ends hs
    rw [← hseq]
    exact hb a ha
  cases h with
  | nil => rfl
  | @cons s ss as bs hspan hrest =>
    have hshares := (Spans.cons hspan hrest).shares
    obtain ⟨e, rest, rfl, hsess, hturn⟩ := hspan.head
    rw [List.map_cons] at *
    rw [List.cons_append] at *
    have hid : ∀ x, Shares s.event x ↔ Shares e x := by
      intro x
      unfold Shares
      rw [hsess, hturn]
    rw [project_sorted hs hb, project_sorted hsorted hbase, hturn]
    split
    · rfl
    · have hall : (∀ x ∈ s.event :: ss.map Span.event, Shares s.event x) ↔
          ∀ x ∈ e :: (rest ++ bs), Shares e x := by
        rw [hshares e]
        exact forall₂_congr (fun x _ => hid x)
      have hthrough : ((s.event :: ss.map Span.event).getLast (List.cons_ne_nil _ _)).seq =
          ((e :: (rest ++ bs)).getLast (List.cons_ne_nil _ _)).seq := by
        rw [List.getLast?_eq_some_getLast (List.cons_ne_nil _ _),
          List.getLast?_eq_some_getLast (List.cons_ne_nil _ _)] at hlast
        simpa using hlast
      by_cases hx : ∀ x ∈ e :: (rest ++ bs), Shares e x
      · rw [if_pos hx, if_pos (hall.mpr hx), hthrough]
        exact parse_blurFirst hproj _
      · rw [if_neg hx, if_neg (fun h => hx (hall.mp h))]

/-! ## Runs of the tail -/

/-- A tail and every event it accepted. -/
structure TailRun where
  tail : CompactEventTail := {}
  accepted : List PiCloudEvent := []

inductive TailAction where
  | accept (event : PiCloudEvent)
  | cover (through : Nat)

namespace TailRun

/-- A conflicting event throws and leaves the tail as it was. -/
def step (envelope : PiCloudEvent → Nat) (r : TailRun) : TailAction → TailRun
  | .accept event =>
    match r.tail.accept envelope event with
    | .error _ => r
    | .ok (fresh, tail) => ⟨tail, if fresh then r.accepted ++ [event] else r.accepted⟩
  | .cover through => { r with tail := r.tail.cover through }

def Guard (r : TailRun) : TailAction → Prop
  | .accept _ => True
  | .cover through => Aligned r.tail through

end TailRun

def tailSystem (envelope : PiCloudEvent → Nat) : System TailRun TailAction where
  init r := r = {}
  step r a q := q = r.step envelope a

theorem reach_stands {envelope : PiCloudEvent → Nat} {as : List TailAction} {r : TailRun}
    (h : Reach ((tailSystem envelope).guard TailRun.Guard) as r) :
    ∃ es, Stands r.tail r.accepted es := by
  refine Reach.invariant (fun r => ∃ es, Stands r.tail r.accepted es) ?_ ?_ h
  · intro r hr
    cases hr
    exact ⟨[], stands_empty⟩
  · intro r a q ⟨es, hes⟩ ⟨hguard, hstep⟩
    cases a with
    | accept event =>
      cases hstep
      show ∃ es, Stands (r.step envelope (.accept event)).tail _ es
      unfold TailRun.step
      dsimp only
      split
      · exact ⟨es, hes⟩
      · rename_i fresh tail hacc
        exact accept_stands hes hacc
    | cover through =>
      cases hstep
      exact ⟨_, cover_stands hes hguard⟩

/-- Where no cover lands inside a span, projecting the tail onto a base is projecting the accepted
events that are not covered, except for the first sequences of texts. -/
theorem compact_tail_refines (envelope : PiCloudEvent → Nat) {as : List TailAction} {r : TailRun}
    (h : Reach ((tailSystem envelope).guard TailRun.Guard) as r)
    (base : Option ConversationTurnTranscript)
    (hb : ∀ b ∈ base, b.throughSequence ≤ r.tail.covered) :
    (projectConversationTurnTranscript r.tail.events base).map
        ConversationTurnTranscript.blurFirst =
      (projectConversationTurnTranscript (uncovered r.accepted r.tail.covered) base).map
        ConversationTurnTranscript.blurFirst := by
  obtain ⟨es, hes⟩ := reach_stands h
  rw [hes.uncovered_eq]
  refine hes.spans.projectConversationTurnTranscript hes.sorted (fun e he => ?_)
  have hcov : r.tail.covered < e.seq := by
    have := List.mem_filter.mp (hes.perm.mem_iff.mp he)
    simpa using this.2
  cases base with
  | none => exact Nat.lt_of_le_of_lt (Nat.zero_le _) hcov
  | some b => exact Nat.lt_of_le_of_lt (hb b rfl) hcov

/-- A delta of one message, as the worker of a turn emits it. -/
def messageDelta (seq : Nat) (text : JsString) : PiCloudEvent where
  eventId := ascii "e"
  sessionId := ascii "s"
  agentId := ascii "root"
  turnId := some (ascii "t")
  seq := seq
  occurredAt := ascii "2026-10-18T00:00:00.000Z"
  body := .assistantTextDelta { text, messageId := some (ascii "m") }

def texts (r : Except ProjectionError ConversationTurnTranscript) : List (Option JsString) :=
  match r with
  | .error _ => []
  | .ok t => t.items.map (fun item => match item.body with
    | .text i => some i.text
    | _ => none)

/-- Two deltas, out of order and merged, and a cover after both. -/
theorem compact_tail_refines_merged :
    ∃ as r, Reach ((tailSystem (fun _ => 0)).guard TailRun.Guard) as r ∧
      (projectConversationTurnTranscript r.tail.events none).map
          ConversationTurnTranscript.blurFirst =
        (projectConversationTurnTranscript (uncovered r.accepted r.tail.covered) none).map
          ConversationTurnTranscript.blurFirst ∧
      r.tail.spans.length = 1 ∧ r.accepted.length = 2 := by
  have h0 : Reach ((tailSystem (fun _ => 0)).guard TailRun.Guard) [] {} := .init rfl
  have g : ∀ r e, TailRun.Guard r (.accept e) := fun _ _ => trivial
  have h1 := h0.next ⟨g _ (messageDelta 2 (ascii "b")), rfl⟩
  have h2 := h1.next ⟨g _ (messageDelta 1 (ascii "a")), rfl⟩
  exact ⟨_, _, h2, compact_tail_refines (fun _ => 0) h2 none nofun, rfl, rfl⟩

/-- A cover inside a span leaves covered text in the tail: on a base that ends with "a", the tail
adds "ab" where the uncovered delta adds "b". -/
theorem cover_inside_span :
    ¬ ∀ as r, Reach (tailSystem (fun _ => 0)) as r →
      ∀ base : Option ConversationTurnTranscript,
        (∀ b ∈ base, b.throughSequence ≤ r.tail.covered) →
        (projectConversationTurnTranscript r.tail.events base).map
            ConversationTurnTranscript.blurFirst =
          (projectConversationTurnTranscript (uncovered r.accepted r.tail.covered) base).map
            ConversationTurnTranscript.blurFirst := by
  intro h
  have h0 : Reach (tailSystem (fun _ => 0)) [] {} := .init rfl
  have h1 := h0.next (a := .accept (messageDelta 1 (ascii "a"))) rfl
  have h2 := h1.next (a := .accept (messageDelta 2 (ascii "b"))) rfl
  have h3 := h2.next (a := .cover 1) rfl
  let base : ConversationTurnTranscript :=
    { throughSequence := 1
      items := [⟨none, .text (.ofDelta { text := ascii "a", messageId := some (ascii "m") } 1)⟩]
      startedSequence := none, terminalSequence := none, stopReason := none, failure := none
      cancellation := none }
  have heq := congrArg texts (h _ _ h3 (some base) (by intro b hb; cases hb; decide))
  exact absurd heq (by decide)

end Runtime
end PiCloud
