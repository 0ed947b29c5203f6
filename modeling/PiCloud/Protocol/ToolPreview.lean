import PiCloud.Lib.Border
import PiCloud.Lib.Utf16

/-!
# Protocol.ToolPreview

Tool preview updates (`tool-preview.ts`): the producer's `previewUpdate`, the receiving
`ToolPreviewBuffer`, and the `ToolPreviewChannel` that re-encodes a view for the next hop.

A delta names the revision it starts from. `previewUpdate_cases` says when one is chosen and that
applied to that very state it gives the next one; `accept_cases` says what a buffer makes of an
update. Everything below about pipelines follows from these two.
-/

namespace PiCloud
namespace Protocol

open Lib

/-- `TOOL_PREVIEW_MAX_BYTES` -/
def toolPreviewMaxBytes : Nat := 8192

/-- `Number.MAX_SAFE_INTEGER` -/
def maxSafeInteger : Nat := 2 ^ 53 - 1

structure ToolPreviewState where
  revision : Nat
  text : JsString
  unavailable : Bool
deriving DecidableEq

inductive ToolPreviewUpdate where
  | reset (revision : Nat) (text : JsString) (unavailable : Bool)
  | delta (revision baseRevision dropHead keepPrefix : Nat) (text : JsString)
deriving DecidableEq

namespace ToolPreviewUpdate

def revision : ToolPreviewUpdate → Nat
  | reset r _ _ => r
  | delta r _ _ _ _ => r

def text : ToolPreviewUpdate → JsString
  | reset _ t _ => t
  | delta _ _ _ _ t => t

def isReset : ToolPreviewUpdate → Bool
  | reset _ _ _ => true
  | delta _ _ _ _ _ => false

/-- `JSON.stringify` of an update; only its length is ever used. -/
def json : ToolPreviewUpdate → JsString
  | reset r t unavailable =>
    ascii "\x7b\"kind\":\"reset\",\"revision\":" ++ jsonNat r ++ ascii ",\"text\":" ++ jsonString t ++
      (if unavailable then ascii ",\"unavailable\":true" else []) ++ ascii "\x7d"
  | delta r base dropHead keepPrefix t =>
    ascii "\x7b\"kind\":\"delta\",\"revision\":" ++ jsonNat r ++ ascii ",\"baseRevision\":" ++
      jsonNat base ++ ascii ",\"dropHead\":" ++ jsonNat dropHead ++ ascii ",\"keepPrefix\":" ++
      jsonNat keepPrefix ++ ascii ",\"text\":" ++ jsonString t ++ ascii "\x7d"

end ToolPreviewUpdate

/-- `previewBytes` -/
def previewBytes (text : JsString) : Nat := utf8Bytes text

inductive PreviewError where
  /-- "Invalid Tool preview update" -/
  | update
  /-- "Invalid Tool preview bounds" -/
  | bounds
deriving DecidableEq

def checkRevision (r : Nat) : Bool := 1 ≤ r && r ≤ maxSafeInteger

/-- `Value.Check(ToolPreviewUpdateSchema, …)`. A string length is counted in code units here; any
coarser count passes at least as much, and the byte bound below is the tighter one. -/
def checkUpdate : ToolPreviewUpdate → Bool
  | .reset r t _ => checkRevision r && t.length ≤ toolPreviewMaxBytes
  | .delta r base dropHead keepPrefix t =>
    checkRevision r && checkRevision base && dropHead ≤ toolPreviewMaxBytes &&
      keepPrefix ≤ toolPreviewMaxBytes && t.length ≤ toolPreviewMaxBytes

def backwards : ToolPreviewUpdate → Bool
  | .reset _ _ _ => false
  | .delta r base _ _ _ => r ≤ base

def parseToolPreviewUpdate (update : ToolPreviewUpdate) : Except PreviewError ToolPreviewUpdate :=
  if checkUpdate update = false then .error .update
  else if toolPreviewMaxBytes < previewBytes update.text || backwards update then .error .bounds
  else .ok update

def commonPrefix : List JsString → List JsString → Nat
  | p :: ps, q :: qs => if p = q then commonPrefix ps qs + 1 else 0
  | _, _ => 0

/-- `dropHead` and `keepPrefix`: keep the common prefix, or the overlap when it is longer. -/
def deltaCut (before after : List JsString) : Nat × Nat :=
  let common := commonPrefix before after
  let suffix := overlap before after
  if common < suffix then (before.length - suffix, suffix) else (0, common)

def previewUpdate (previous : Option ToolPreviewState) (next : ToolPreviewState) (reset : Bool) :
    ToolPreviewUpdate :=
  let full := ToolPreviewUpdate.reset next.revision next.text next.unavailable
  match previous with
  | none => full
  | some previous =>
    if reset || previous.unavailable || next.unavailable then full
    else
      let after := points next.text
      let cut := deltaCut (points previous.text) after
      let delta := ToolPreviewUpdate.delta next.revision previous.revision cut.1 cut.2
        (after.drop cut.2).flatten
      if previewBytes delta.json < previewBytes full.json then delta else full

structure ToolPreviewBuffer where
  revision : Nat := 0
  current : Option ToolPreviewState := none
deriving DecidableEq

/-- What a delta makes of the state it finds: nothing unless it starts from that state. -/
def applyDelta (previous : Option ToolPreviewState)
    (revision baseRevision dropHead keepPrefix : Nat) (text : JsString) :
    Option ToolPreviewState :=
  match previous with
  | none => none
  | some previous =>
    if previous.unavailable || previous.revision ≠ baseRevision then none
    else if (points previous.text).length < dropHead + keepPrefix then none
    else
      let text := (((points previous.text).drop dropHead).take keepPrefix).flatten ++ text
      if toolPreviewMaxBytes < previewBytes text then none else some ⟨revision, text, false⟩

def ToolPreviewBuffer.accept (b : ToolPreviewBuffer) (update : ToolPreviewUpdate) :
    Except PreviewError (Bool × ToolPreviewBuffer) :=
  match parseToolPreviewUpdate update with
  | .error e => .error e
  | .ok _ =>
    if update.revision ≤ b.revision then .ok (false, b)
    else
      match update with
      | .reset r t unavailable => .ok (true, ⟨r, some ⟨r, t, unavailable⟩⟩)
      | .delta r base dropHead keepPrefix t =>
        .ok (true, ⟨r, applyDelta b.current r base dropHead keepPrefix t⟩)

structure ToolPreviewChannel where
  buffer : ToolPreviewBuffer := {}
  sent : Option ToolPreviewState := none
  pending : Bool := false
  reset : Bool := false

namespace ToolPreviewChannel

def current (c : ToolPreviewChannel) : Option ToolPreviewState := c.buffer.current

def accept (c : ToolPreviewChannel) (update : ToolPreviewUpdate) :
    Except PreviewError (Bool × ToolPreviewChannel) :=
  match c.buffer.accept update with
  | .error e => .error e
  | .ok (false, b) => .ok (false, { c with buffer := b })
  | .ok (true, b) =>
    match b.current with
    | none => .ok (true, { c with buffer := b, sent := none, pending := false })
    | some _ =>
      .ok (true, { c with buffer := b, pending := true, reset := c.reset || update.isReset })

def resync (c : ToolPreviewChannel) : ToolPreviewChannel := { c with sent := none, reset := true }

def take (c : ToolPreviewChannel) : Option (ToolPreviewUpdate × ToolPreviewChannel) :=
  match c.current with
  | none => none
  | some current =>
    if c.pending then
      some (previewUpdate c.sent current c.reset,
        { c with sent := some current, pending := false, reset := false })
    else none

end ToolPreviewChannel

/-! ## What an update says -/

/-- A state that fits the wire: a revision in range and a text within the byte bound. -/
structure ToolPreviewState.Fits (s : ToolPreviewState) : Prop where
  revision : checkRevision s.revision = true
  bytes : previewBytes s.text ≤ toolPreviewMaxBytes

def deltaText (before : JsString) (dropHead keepPrefix : Nat) (text : JsString) : JsString :=
  (((points before).drop dropHead).take keepPrefix).flatten ++ text

theorem commonPrefix_le_left : ∀ ps qs : List JsString, commonPrefix ps qs ≤ ps.length := by
  intro ps
  induction ps with
  | nil => intro qs; simp [commonPrefix]
  | cons p ps ih =>
    intro qs
    cases qs with
    | nil => simp [commonPrefix]
    | cons q qs =>
      have := ih qs
      simp only [commonPrefix, List.length_cons]
      split <;> omega

theorem take_commonPrefix : ∀ ps qs : List JsString,
    ps.take (commonPrefix ps qs) = qs.take (commonPrefix ps qs) := by
  intro ps
  induction ps with
  | nil => intro qs; simp [commonPrefix]
  | cons p ps ih =>
    intro qs
    cases qs with
    | nil => simp [commonPrefix]
    | cons q qs =>
      simp only [commonPrefix]
      split
      · rename_i h
        subst h
        simp [ih qs]
      · simp

/-- The overlap of two texts is the largest in their code points. In code units it is the largest
as well, unless `previous` ends with a high or `next` begins with a low surrogate. -/
theorem overlap_maximal (previous next : JsString) :
    IsGreatest {k | Overlaps (points previous) (points next) k}
        (overlap (points previous) (points next)) ∧
      ((∀ u ∈ previous.getLast?, isHigh u = false) → (∀ u ∈ next.head?, isLow u = false) →
        IsGreatest {k | Overlaps previous next k}
          ((points next).take (overlap (points previous) (points next))).flatten.length) := by
  have hgreatest := overlap_greatest (points previous) (points next)
  refine ⟨hgreatest, fun hlast hhead => ?_⟩
  generalize overlap (points previous) (points next) = k at hgreatest ⊢
  constructor
  · obtain ⟨a, v, b, hprevious, hnext, hlen⟩ := overlaps_iff_append.mp hgreatest.1
    rw [hnext, ← hlen, List.take_left]
    refine overlaps_iff_append.mpr ⟨a.flatten, v.flatten, b.flatten, ?_, ?_, rfl⟩
    · rw [← List.flatten_append, ← hprevious, points_flatten]
    · rw [← List.flatten_append, ← hnext, points_flatten]
  · intro m hm
    obtain ⟨a, v, b, rfl, rfl, rfl⟩ := overlaps_iff_append.mp hm
    cases v with
    | nil => exact Nat.zero_le _
    | cons u v =>
      -- Neither text is cut within a pair, so the shared units are whole code points of both.
      have hprevious : points (a ++ u :: v) = points a ++ points (u :: v) :=
        points_append_of_seam (.inr hhead)
      have hnext : points (u :: v ++ b) = points (u :: v) ++ points b :=
        points_append_of_seam (.inl fun w hw => hlast w (by rw [List.getLast?_append, hw]; rfl))
      have hle : (points (u :: v)).length ≤ k :=
        hgreatest.2 (overlaps_iff_append.mpr ⟨_, _, _, hprevious, hnext, rfl⟩)
      rw [hnext, List.take_append, List.take_of_length_le hle, List.flatten_append, points_flatten,
        List.length_append]
      exact Nat.le_add_right _ _

/-- "😀" overlaps itself by one code point, which is two code units. -/
theorem overlap_counts_points :
    overlap (points [0xD83D, 0xDE00]) (points [0xD83D, 0xDE00]) = 1 ∧
      ¬ IsGreatest {k | Overlaps [0xD83D, 0xDE00] ([0xD83D, 0xDE00] : JsString) k} 1 := by
  refine ⟨by decide, fun h => ?_⟩
  have hle := h.2 (show Overlaps _ _ 2 by decide)
  omega

theorem deltaCut_spec (before after : List JsString) :
    (deltaCut before after).1 + (deltaCut before after).2 ≤ before.length ∧
      ((before.drop (deltaCut before after).1).take (deltaCut before after).2).flatten ++
        (after.drop (deltaCut before after).2).flatten = after.flatten := by
  have hkeep : (before.drop (deltaCut before after).1).take (deltaCut before after).2 =
      after.take (deltaCut before after).2 ∧
        (deltaCut before after).1 + (deltaCut before after).2 ≤ before.length := by
    unfold deltaCut
    simp only []
    split
    · obtain ⟨hle, -, heq⟩ := (overlap_greatest before after).1
      exact ⟨by rw [heq, List.take_take, Nat.min_self], by simp only []; omega⟩
    · simp only [List.drop_zero, Nat.zero_add]
      exact ⟨take_commonPrefix before after, commonPrefix_le_left before after⟩
  refine ⟨hkeep.2, ?_⟩
  rw [hkeep.1, ← List.flatten_append, List.take_append_drop]

theorem previewUpdate_cases (previous : Option ToolPreviewState) (next : ToolPreviewState)
    (reset : Bool) :
    previewUpdate previous next reset = .reset next.revision next.text next.unavailable ∨
      ∃ p dropHead keepPrefix, previous = some p ∧ p.unavailable = false ∧
        next.unavailable = false ∧ dropHead + keepPrefix ≤ (points p.text).length ∧
        previewUpdate previous next reset = .delta next.revision p.revision dropHead keepPrefix
          ((points next.text).drop keepPrefix).flatten ∧
        deltaText p.text dropHead keepPrefix ((points next.text).drop keepPrefix).flatten =
          next.text := by
  unfold previewUpdate
  cases previous with
  | none => left; rfl
  | some p =>
    simp only []
    split
    · left; rfl
    · rename_i hflags
      split
      · right
        obtain ⟨hle, htext⟩ := deltaCut_spec (points p.text) (points next.text)
        simp only [Bool.or_eq_true, not_or, Bool.not_eq_true] at hflags
        exact ⟨p, _, _, rfl, hflags.1.2, hflags.2, hle, rfl,
          by rw [deltaText, htext, points_flatten]⟩
      · left; rfl

theorem previewUpdate_revision (previous : Option ToolPreviewState) (next : ToolPreviewState)
    (reset : Bool) : (previewUpdate previous next reset).revision = next.revision := by
  rcases previewUpdate_cases previous next reset with h | ⟨p, d, k, _, _, _, _, h, _⟩ <;>
    rw [h] <;> rfl

/-! ## Parsing -/

theorem parse_ok_iff (u : ToolPreviewUpdate) :
    parseToolPreviewUpdate u = .ok u ↔
      checkUpdate u = true ∧ previewBytes u.text ≤ toolPreviewMaxBytes ∧ backwards u = false := by
  unfold parseToolPreviewUpdate
  split
  · rename_i h; simp [h]
  · rename_i h
    split
    · rename_i h'
      simp only [Bool.or_eq_true, decide_eq_true_eq] at h'
      constructor
      · intro hc; cases hc
      · rintro ⟨_, hb, hn⟩
        rcases h' with h' | h'
        · omega
        · rw [hn] at h'; cases h'
    · rename_i h'
      simp only [Bool.or_eq_true, decide_eq_true_eq, not_or, Bool.not_eq_true] at h'
      simp only [Bool.not_eq_false] at h
      exact iff_of_true rfl ⟨h, by omega, h'.2⟩

theorem previewUpdate_parses {previous : Option ToolPreviewState} {next : ToolPreviewState}
    (reset : Bool) (hn : next.Fits) (hp : ∀ p ∈ previous, p.Fits ∧ p.revision < next.revision) :
    parseToolPreviewUpdate (previewUpdate previous next reset) =
      .ok (previewUpdate previous next reset) := by
  rw [parse_ok_iff]
  have hb := hn.bytes
  have hlen := length_le_utf8Bytes next.text
  unfold previewBytes at hb
  rcases previewUpdate_cases previous next reset with h | ⟨p, d, k, rfl, _, _, hle, h, _⟩
  · rw [h]
    simp only [checkUpdate, hn.revision, backwards, ToolPreviewUpdate.text, previewBytes,
      Bool.true_and, decide_eq_true_eq]
    exact ⟨by omega, hb, trivial⟩
  · obtain ⟨hpf, hlt⟩ := hp p rfl
    have hpb := hpf.bytes
    unfold previewBytes at hpb
    have hpl := length_points_le p.text
    have hcut := utf8Bytes_drop_le next.text k
    have hcutlen := length_le_utf8Bytes ((points next.text).drop k).flatten
    rw [h]
    simp only [checkUpdate, hn.revision, hpf.revision, backwards, ToolPreviewUpdate.text,
      previewBytes, Bool.true_and, Bool.and_eq_true, decide_eq_true_eq, decide_eq_false_iff_not]
    exact ⟨⟨⟨by omega, by omega⟩, by omega⟩, by omega, by omega⟩

/-! ## Receiving -/

theorem accept_cases {b b' : ToolPreviewBuffer} {u : ToolPreviewUpdate} {fresh : Bool}
    (h : b.accept u = .ok (fresh, b')) :
    parseToolPreviewUpdate u = .ok u ∧
      ((fresh = false ∧ u.revision ≤ b.revision ∧ b' = b) ∨
        (fresh = true ∧ b.revision < u.revision ∧ b'.revision = u.revision ∧
          ((∃ t unavailable, u = .reset u.revision t unavailable ∧
              b'.current = some ⟨u.revision, t, unavailable⟩) ∨
            ∃ base d k t, u = .delta u.revision base d k t ∧
              b'.current = applyDelta b.current u.revision base d k t))) := by
  unfold ToolPreviewBuffer.accept at h
  have hparse : ∀ e, parseToolPreviewUpdate u = e → (e = .ok u ∨ ∃ x, e = .error x) := by
    intro e he
    unfold parseToolPreviewUpdate at he
    split at he
    · exact .inr ⟨_, he.symm⟩
    · split at he
      · exact .inr ⟨_, he.symm⟩
      · exact .inl he.symm
  rcases hparse _ rfl with hp | ⟨x, hp⟩
  · rw [hp] at h
    simp only [] at h
    refine ⟨hp, ?_⟩
    split at h
    · rename_i hle
      cases h
      exact .inl ⟨rfl, hle, rfl⟩
    · rename_i hlt
      right
      cases u with
      | reset r t unavailable =>
        cases h
        exact ⟨rfl, by omega, rfl, .inl ⟨t, unavailable, rfl, rfl⟩⟩
      | delta r base d k t =>
        cases h
        exact ⟨rfl, by omega, rfl, .inr ⟨base, d, k, t, rfl, rfl⟩⟩
  · rw [hp] at h; cases h

theorem applyDelta_some {previous : Option ToolPreviewState} {r base d k : Nat} {t : JsString}
    {s : ToolPreviewState} (h : applyDelta previous r base d k t = some s) :
    ∃ p, previous = some p ∧ p.revision = base ∧ p.unavailable = false ∧
      s = ⟨r, deltaText p.text d k t, false⟩ ∧
      previewBytes (deltaText p.text d k t) ≤ toolPreviewMaxBytes := by
  unfold applyDelta at h
  cases previous with
  | none => cases h
  | some p =>
    simp only [] at h
    split at h
    · cases h
    · rename_i hflags
      split at h
      · cases h
      · split at h
        · cases h
        · rename_i hbytes
          simp only [Bool.or_eq_true, decide_eq_true_eq, not_or, Bool.not_eq_true,
            Decidable.not_not] at hflags
          cases h
          exact ⟨p, rfl, hflags.2, hflags.1, rfl, by unfold deltaText; omega⟩

/-- A buffer that receives: an update the parser refuses is dropped by every caller. -/
def ToolPreviewBuffer.receive (b : ToolPreviewBuffer) (u : ToolPreviewUpdate) :
    ToolPreviewBuffer :=
  match b.accept u with
  | .ok (_, b') => b'
  | .error _ => b

def ToolPreviewChannel.receive (c : ToolPreviewChannel) (u : ToolPreviewUpdate) :
    ToolPreviewChannel :=
  match c.accept u with
  | .ok (_, c') => c'
  | .error _ => c

theorem ToolPreviewBuffer.receive_cases (b : ToolPreviewBuffer) (u : ToolPreviewUpdate) :
    b.receive u = b ∨ ∃ b', b.accept u = .ok (true, b') ∧ b.receive u = b' := by
  unfold receive
  cases h : b.accept u with
  | error e => left; rfl
  | ok r =>
    obtain ⟨fresh, b'⟩ := r
    cases fresh with
    | true => right; exact ⟨b', rfl, rfl⟩
    | false =>
      left
      rcases (accept_cases h).2 with ⟨_, _, hb⟩ | ⟨hc, _⟩
      · exact hb
      · cases hc

theorem ToolPreviewChannel.receive_cases (c : ToolPreviewChannel) (u : ToolPreviewUpdate) :
    c.receive u = c ∨ ∃ b', c.buffer.accept u = .ok (true, b') ∧
      ((b'.current = none ∧ c.receive u = { c with buffer := b', sent := none, pending := false }) ∨
        (∃ s, b'.current = some s ∧ c.receive u =
          { c with buffer := b', pending := true, reset := c.reset || u.isReset })) := by
  unfold receive accept
  cases h : c.buffer.accept u with
  | error e => left; rfl
  | ok r =>
    obtain ⟨fresh, b'⟩ := r
    cases fresh with
    | false =>
      left
      rcases (accept_cases h).2 with ⟨_, _, rfl⟩ | ⟨hc, _⟩
      · rfl
      · cases hc
    | true =>
      right
      refine ⟨b', rfl, ?_⟩
      cases hb : b'.current with
      | none => left; simp only [hb]; exact ⟨trivial, trivial⟩
      | some s => right; exact ⟨s, rfl, by simp only [hb]⟩

end Protocol
end PiCloud
