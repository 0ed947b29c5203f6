import PiCloud.Lib.Utf8
import PiCloud.Runtime.SessionStreamFraming

/-!
# Web.Sse

`sse.ts`: the browser's reader of a session stream.

* `SseFrameParser.push`: cuts decoded text into frames.
* `receive`: what one network chunk does; `consumeResponse` reads a whole response.
* `stream_round_trip`: the values come out as they were sent, however the bytes are cut, and no
  part of a value comes out of a part of the bytes.

What is delivered is the assembled value; the checks of `parsePiCloudEvent` and its like come after.
-/

namespace PiCloud
namespace Web

open Lib PiCloud.Runtime

inductive StreamError where
  | frameExceeded | malformedJson | invalidKind | interrupted | unexpectedFrame | invalidPart
  | noBeginning
deriving DecidableEq

structure SseFrame where
  event : Option JsString
  data : JsString
  retry : Option Nat
deriving DecidableEq

/-! ## Frames -/

/-- The length of `\r?\n` at the beginning of a text. -/
def lineBreak : JsString → Option Nat
  | u :: rest =>
    if u = 0x0A then some 1
    else if u = 0x0D then
      match rest with
      | v :: _ => if v = 0x0A then some 2 else none
      | [] => none
    else none
  | [] => none

/-- The length of `\r?\n\r?\n` at the beginning of a text. -/
def frameBreak (s : JsString) : Option Nat := do
  let first ← lineBreak s
  let second ← lineBreak (s.drop first)
  return first + second

/-- What stands before the first frame break and after it. -/
def findBoundary : JsString → Option (JsString × JsString)
  | [] => none
  | u :: rest =>
    match frameBreak (u :: rest) with
    | some k => some ([], (u :: rest).drop k)
    | none => (findBoundary rest).map fun x => (u :: x.1, x.2)

/-- `raw.split(/\r?\n/)` -/
def splitLines : JsString → List JsString
  | [] => [[]]
  | [u] => if u = 0x0A then [[], []] else [[u]]
  | u :: v :: rest =>
    if u = 0x0A then [] :: splitLines (v :: rest)
    else if u = 0x0D ∧ v = 0x0A then [] :: splitLines rest
    else match splitLines (v :: rest) with
      | line :: lines => (u :: line) :: lines
      | [] => [[u]]

/-- The field and the value of a line; one blank after the colon is dropped. -/
def fieldOf (line : JsString) : JsString × JsString :=
  let field := line.takeWhile (· != 0x3A)
  let value := (line.drop field.length).drop 1
  (field, if value.head? = some 0x20 then value.drop 1 else value)

def decimalDigit (u : CodeUnit) : Bool := 0x30 ≤ u && u ≤ 0x39

/-- `Number(value)`, where `value` is a safe integer in digits. -/
def safeDigits (value : JsString) : Option Nat :=
  if value ≠ [] ∧ value.all decimalDigit then
    let n := value.foldl (fun n u => n * 10 + (u.toNat - 0x30)) 0
    if n ≤ 2 ^ 53 - 1 then some n else none
  else none

structure Fields where
  data : List JsString := []
  event : Option JsString := none
  retry : Option Nat := none

def parseLine (fields : Fields) (line : JsString) : Fields :=
  if line = [] ∨ line.head? = some 0x3A then fields
  else
    let (field, value) := fieldOf line
    if field = ascii "data" then { fields with data := fields.data ++ [value] }
    else if field = ascii "event" then { fields with event := some value }
    else if field = ascii "retry" then
      { fields with retry := (safeDigits value).orElse fun _ => fields.retry }
    else fields

/-- `data.join("\n")` -/
def joinLines : List JsString → JsString
  | [] => []
  | [line] => line
  | line :: lines => line ++ newline ++ joinLines lines

def parseFrame (raw : JsString) : Option SseFrame :=
  let fields := (splitLines raw).foldl parseLine {}
  if fields.data = [] then none
  else some { event := fields.event, data := joinLines fields.data, retry := fields.retry }

structure SseFrameParser where
  buffer : JsString := []
  firstPush : Bool := true
deriving DecidableEq

namespace SseFrameParser

/-- The loop of `push`: the frames that are whole, and what is left of the buffer. A frame takes
units off the buffer, so the fuel is its length. -/
def drain : Nat → JsString → Except StreamError (List SseFrame × JsString)
  | 0, buffer => .ok ([], buffer)
  | fuel + 1, buffer =>
    match findBoundary buffer with
    | none => .ok ([], buffer)
    | some (raw, rest) => do
      if utf8Bytes raw > maxFrameBytes then throw .frameExceeded
      let (frames, rest) ← drain fuel rest
      return ((parseFrame raw).toList ++ frames, rest)

def push (parser : SseFrameParser) (value : JsString) :
    Except StreamError (List SseFrame × SseFrameParser) := do
  let chunk := if parser.firstPush ∧ value.head? = some 0xFEFF then value.drop 1 else value
  let (frames, rest) ← drain (parser.buffer ++ chunk).length (parser.buffer ++ chunk)
  if utf8Bytes rest > maxFrameBytes then throw .frameExceeded
  return (frames, { buffer := rest, firstPush := false })

end SseFrameParser

/-! ## Values -/

section Reader

variable {V : Type}

/-- `inside` is the kind and the parts of a value that `parseChunked` is reading. -/
structure Values (V : Type) where
  inside : Option (StreamKind × List JsString) := none
  retryMs : Option Nat := none
  delivered : List (StreamKind × V) := []

variable (J : JsonText V)

def json (data : JsString) : Except StreamError V :=
  match J.parse data with
  | some value => .ok value
  | none => .error .malformedJson

def headerKind (header : V) : Except StreamError StreamKind :=
  if J.kind header = some (ascii "snapshot") then .ok .snapshot
  else if J.kind header = some (ascii "event") then .ok .event
  else .error .invalidKind

def partText (value : V) : Except StreamError JsString :=
  match J.asText value with
  | some part => .ok part
  | none => .error .invalidPart

/-- A frame within a value. -/
def acceptPart (r : Values V) (kind : StreamKind) (cuts : List JsString) (frame : SseFrame) :
    Except StreamError (Values V) := do
  if frame.event = some (ascii "stream.end") then
    let value ← json J cuts.flatten
    return { r with inside := none, delivered := r.delivered ++ [(kind, value)] }
  if frame.event ≠ some (ascii "stream.part") then throw .unexpectedFrame
  let value ← json J frame.data
  let part ← partText J value
  return { r with inside := some (kind, cuts ++ [part]) }

/-- A frame between values. -/
def acceptValue (r : Values V) (frame : SseFrame) : Except StreamError (Values V) := do
  let retryMs := frame.retry.orElse fun _ => r.retryMs
  let value ← json J frame.data
  if frame.event = some (ascii "stream.begin") then
    let kind ← headerKind J value
    return { r with retryMs, inside := some (kind, []) }
  if frame.event.any ((ascii "stream.").isPrefixOf ·) then throw .noBeginning
  return { r with retryMs, delivered := r.delivered ++ [(.event, value)] }

def accept (r : Values V) (frame : SseFrame) : Except StreamError (Values V) :=
  match r.inside with
  | some (kind, cuts) => acceptPart J r kind cuts frame
  | none => acceptValue J r frame

structure Reader (V : Type) where
  decoder : Decoder := {}
  parser : SseFrameParser := {}
  values : Values V := {}

def receive (r : Reader V) (chunk : List UInt8) : Except StreamError (Reader V) := do
  let (decoder, text) := r.decoder.decode chunk
  let (frames, parser) ← r.parser.push text
  let values ← frames.foldlM (accept J) r.values
  return { decoder, parser, values }

/-- The values delivered from a response that ends after these chunks. -/
def consumeResponse (chunks : List (List UInt8)) : Except StreamError (List (StreamKind × V)) := do
  let r ← chunks.foldlM (receive J) {}
  if r.values.inside.isSome then throw .interrupted
  return r.values.delivered

end Reader

/-! ## Frame breaks -/

theorem lineBreak_printable {u : CodeUnit} (hu : 0x20 ≤ u) (t : JsString) :
    lineBreak (u :: t) = none := by
  have h1 : u ≠ 0x0A := by
    rintro rfl
    exact absurd hu (by decide)
  have h2 : u ≠ 0x0D := by
    rintro rfl
    exact absurd hu (by decide)
  simp only [lineBreak, h1, h2, if_false]

theorem lineBreak_append {s : JsString} {k : Nat} (h : lineBreak s = some k) (t : JsString) :
    lineBreak (s ++ t) = some k ∧ k ≤ s.length := by
  cases s with
  | nil => cases h
  | cons u rest =>
    simp only [lineBreak, List.cons_append] at h ⊢
    by_cases h1 : u = 0x0A
    · rw [if_pos h1] at h ⊢
      cases h
      exact ⟨rfl, by simp⟩
    rw [if_neg h1] at h ⊢
    by_cases h2 : u = 0x0D
    · rw [if_pos h2] at h ⊢
      cases rest with
      | nil => cases h
      | cons v rest =>
        simp only [List.cons_append] at h ⊢
        by_cases h3 : v = 0x0A
        · rw [if_pos h3] at h ⊢
          cases h
          exact ⟨rfl, by simp⟩
        · rw [if_neg h3] at h
          cases h
    · rw [if_neg h2] at h
      cases h

theorem frameBreak_append {s : JsString} {k : Nat} (h : frameBreak s = some k) (t : JsString) :
    frameBreak (s ++ t) = some k := by
  unfold frameBreak at h ⊢
  obtain ⟨i, hi, h⟩ := Option.bind_eq_some_iff.mp h
  obtain ⟨j, hj, h⟩ := Option.bind_eq_some_iff.mp h
  obtain ⟨hi', hlen⟩ := lineBreak_append hi t
  obtain ⟨hj', -⟩ := lineBreak_append hj t
  rw [hi']
  simp only [Option.bind_eq_bind, Option.bind_some, List.drop_append_of_le_length hlen, hj']
  exact h

theorem findBoundary_prefix {s t : JsString} (h : findBoundary (s ++ t) = none) :
    findBoundary s = none := by
  induction s with
  | nil => rfl
  | cons u s ih =>
    rw [List.cons_append, findBoundary] at h
    rw [findBoundary]
    cases hbreak : frameBreak (u :: s) with
    | some k =>
      have happend := frameBreak_append hbreak t
      rw [List.cons_append] at happend
      rw [happend] at h
      cases h
    | none =>
      cases hall : frameBreak (u :: (s ++ t)) with
      | some k =>
        rw [hall] at h
        cases h
      | none =>
        rw [hall] at h
        simp only [Option.map_eq_none_iff] at h ⊢
        exact ih h

theorem frameBreak_none {u : CodeUnit} {t : JsString} (h : lineBreak (u :: t) = none) :
    frameBreak (u :: t) = none := by
  rw [frameBreak, h]
  rfl

theorem findBoundary_line {line : JsString} (h : Printable line) (t : JsString) :
    findBoundary (line ++ t) = (findBoundary t).map fun x => (line ++ x.1, x.2) := by
  induction line with
  | nil => cases h : findBoundary t <;> simp [h]
  | cons u line ih =>
    unfold Printable at h ih
    rw [List.forall_mem_cons] at h
    rw [List.cons_append, findBoundary, frameBreak_none (lineBreak_printable h.1 _), ih h.2]
    cases findBoundary t <;> rfl

theorem findBoundary_between {u : CodeUnit} (h : 0x20 ≤ u) (t : JsString) :
    findBoundary (newline ++ u :: t) =
      (findBoundary (u :: t)).map fun x => (newline ++ x.1, x.2) := by
  have hbreak : frameBreak (0x0A :: u :: t) = none := by
    have hnext : lineBreak ((0x0A :: u :: t).drop 1) = none := lineBreak_printable h t
    have hfirst : lineBreak (0x0A :: u :: t) = some 1 := rfl
    rw [frameBreak, hfirst]
    simp only [Option.bind_eq_bind, Option.bind_some, hnext, Option.bind_none]
  show findBoundary (0x0A :: u :: t) = _
  rw [findBoundary, hbreak]
  rfl

theorem findBoundary_end (t : JsString) :
    findBoundary (newline ++ newline ++ t) = some ([], t) := rfl

def rawFrame (event data : JsString) : JsString :=
  ascii "event: " ++ event ++ newline ++ (ascii "data: " ++ data)

theorem frameText_eq (event data : JsString) :
    frameText event data = rawFrame event data ++ (newline ++ newline) := by
  simp only [frameText, rawFrame, List.append_assoc]

section Shape

variable {f event data : JsString}

theorem findBoundary_raw (hf : IsFrame f event data) (t : JsString) :
    findBoundary (rawFrame event data ++ t) =
      (findBoundary t).map fun x => (rawFrame event data ++ x.1, x.2) := by
  have h1 : Printable (ascii "event: " ++ event) :=
    Printable.append (by unfold Printable; decide) hf.event_name.spec.1
  have h2 : Printable (ascii "data: " ++ data) :=
    Printable.append (by unfold Printable; decide) hf.printable
  have hcons : ∃ rest, ascii "data: " ++ data = 0x64 :: rest := ⟨ascii "ata: " ++ data, rfl⟩
  obtain ⟨rest, hcons⟩ := hcons
  have hbetween : findBoundary (newline ++ (ascii "data: " ++ data ++ t)) =
      (findBoundary (ascii "data: " ++ data ++ t)).map fun x => (newline ++ x.1, x.2) := by
    rw [hcons]
    exact findBoundary_between (by decide) _
  unfold rawFrame
  rw [List.append_assoc, List.append_assoc, findBoundary_line h1, hbetween, findBoundary_line h2]
  cases findBoundary t <;> simp

theorem findBoundary_frame (hf : IsFrame f event data) (t : JsString) :
    findBoundary (f ++ t) = some (rawFrame event data, t) := by
  rw [hf.eq, frameText_eq, List.append_assoc, findBoundary_raw hf, findBoundary_end]
  simp

theorem findBoundary_partial (hf : IsFrame f event data) {s : JsString} (h : s <+: f)
    (hne : s ≠ f) : findBoundary s = none := by
  have hlast : f = rawFrame event data ++ newline ++ newline := by
    rw [hf.eq, frameText_eq, List.append_assoc]
  have hinit : s <+: rawFrame event data ++ newline := by
    rw [hlast] at h hne
    rcases List.prefix_concat_iff.mp h with h | h
    · exact absurd h hne
    · exact h
  obtain ⟨t, ht⟩ := hinit
  refine findBoundary_prefix (t := t) ?_
  rw [ht, findBoundary_raw hf]
  rfl

theorem splitLines_line {line : JsString} (h : Printable line) : splitLines line = [line] := by
  induction line with
  | nil => rfl
  | cons u line ih =>
    unfold Printable at h ih
    rw [List.forall_mem_cons] at h
    have h1 : u ≠ 0x0A := by
      rintro rfl
      exact absurd h.1 (by decide)
    have h2 : u ≠ 0x0D := by
      rintro rfl
      exact absurd h.1 (by decide)
    cases line with
    | nil => rw [splitLines, if_neg h1]
    | cons v line =>
      rw [splitLines, if_neg h1, if_neg fun hc => h2 hc.1, ih h.2]

theorem splitLines_newline {line : JsString} (h : Printable line) (t : JsString) (ht : t ≠ []) :
    splitLines (line ++ newline ++ t) = line :: splitLines t := by
  obtain ⟨w, t', rfl⟩ := List.exists_cons_of_ne_nil ht
  induction line with
  | nil => rfl
  | cons u line ih =>
    unfold Printable at h ih
    rw [List.forall_mem_cons] at h
    have h1 : u ≠ 0x0A := by
      rintro rfl
      exact absurd h.1 (by decide)
    have h2 : u ≠ 0x0D := by
      rintro rfl
      exact absurd h.1 (by decide)
    have ih := ih h.2
    have hcons : ∃ v rest, line ++ newline ++ w :: t' = v :: rest := by
      cases line with
      | nil => exact ⟨_, _, rfl⟩
      | cons v line => exact ⟨_, _, rfl⟩
    obtain ⟨v, rest, hcons⟩ := hcons
    rw [hcons] at ih
    rw [List.cons_append, List.cons_append, hcons, splitLines, if_neg h1,
      if_neg fun hc => h2 hc.1, ih]

theorem parseFrame_raw (hf : IsFrame f event data) :
    parseFrame (rawFrame event data) = some { event := some event, data, retry := none } := by
  have h1 : Printable (ascii "event: " ++ event) :=
    Printable.append (by unfold Printable; decide) hf.event_name.spec.1
  have h2 : Printable (ascii "data: " ++ data) :=
    Printable.append (by unfold Printable; decide) hf.printable
  have hlines : splitLines (rawFrame event data) =
      [ascii "event: " ++ event, ascii "data: " ++ data] := by
    rw [rawFrame, splitLines_newline h1 _ (by simp [ascii]), splitLines_line h2]
  rw [parseFrame, hlines]
  rfl

theorem rawFrame_bytes (hf : IsFrame f event data) :
    utf8Bytes (rawFrame event data) ≤ maxFrameBytes := by
  refine Nat.le_trans ?_ hf.small
  rw [hf.eq, frameText_eq]
  exact utf8Bytes_le_append _ _

end Shape

/-! ## Text -/

/-- A frame as its event and its data. -/
abbrev FrameParts := JsString × JsString

def FrameParts.text (x : FrameParts) : JsString := frameText x.1 x.2

def FrameParts.sse (x : FrameParts) : SseFrame := { event := some x.1, data := x.2, retry := none }

def FrameParts.Valid (x : FrameParts) : Prop := IsFrame (frameText x.1 x.2) x.1 x.2

def textOf (fs : List FrameParts) : JsString := (fs.map FrameParts.text).flatten

theorem textOf_append (fs gs : List FrameParts) : textOf (fs ++ gs) = textOf fs ++ textOf gs := by
  simp [textOf]

theorem drain_spec (fs : List FrameParts) (hfs : ∀ x ∈ fs, x.Valid) {s : JsString}
    (h : s <+: textOf fs) (fuel : Nat) (hfuel : s.length ≤ fuel) :
    ∃ done todo rest, fs = done ++ todo ∧ s = textOf done ++ rest ∧
      SseFrameParser.drain fuel s = .ok (done.map FrameParts.sse, rest) ∧
      findBoundary rest = none ∧ utf8Bytes rest ≤ maxFrameBytes := by
  induction fs generalizing s fuel with
  | nil =>
    have hnil : s = [] := List.prefix_nil.mp h
    subst hnil
    refine ⟨[], [], [], rfl, rfl, ?_, rfl, by simp [utf8Bytes]⟩
    cases fuel <;> rfl
  | cons x fs ih =>
    rw [List.forall_mem_cons] at hfs
    have htext : textOf (x :: fs) = x.text ++ textOf fs := by simp [textOf]
    rw [htext] at h
    by_cases hwhole : x.text <+: s
    · obtain ⟨s', rfl⟩ := hwhole
      have hboundary : findBoundary (x.text ++ s') = some (rawFrame x.1 x.2, s') :=
        findBoundary_frame hfs.1 s'
      have hpos : 0 < x.text.length := by
        simp only [FrameParts.text, frameText, newline, List.length_append, List.length_cons]
        omega
      cases fuel with
      | zero =>
        rw [List.length_append] at hfuel
        omega
      | succ fuel =>
        rw [List.length_append] at hfuel
        obtain ⟨done, todo, rest, hsplit, hs, hdrain, hnone, hbytes⟩ :=
          ih hfs.2 (List.prefix_append_right_inj _ |>.mp h) fuel (by omega)
        refine ⟨x :: done, todo, rest, by rw [hsplit, List.cons_append], ?_, ?_, hnone, hbytes⟩
        · rw [hs]
          simp [textOf]
        · rw [SseFrameParser.drain, hboundary]
          simp only [hdrain, Nat.not_lt.mpr (rawFrame_bytes hfs.1), parseFrame_raw hfs.1]
          rfl
    · have hinit : s <+: x.text := by
        rcases List.prefix_or_prefix_of_prefix h (List.prefix_append _ _) with h | h
        · exact h
        · exact absurd h hwhole
      have hne : s ≠ x.text := by
        rintro rfl
        exact hwhole (List.prefix_refl _)
      have hnone : findBoundary s = none := findBoundary_partial hfs.1 hinit hne
      refine ⟨[], x :: fs, s, rfl, rfl, ?_, hnone, ?_⟩
      · cases fuel with
        | zero => rfl
        | succ fuel => rw [SseFrameParser.drain, hnone]; rfl
      · obtain ⟨t, ht⟩ := hinit
        have hle := utf8Bytes_le_append s t
        rw [ht] at hle
        exact Nat.le_trans hle hfs.1.small

theorem textOf_head (fs : List FrameParts) : fs = [] ∨ ∃ t, textOf fs = 0x65 :: t := by
  cases fs with
  | nil => exact .inl rfl
  | cons x fs => exact .inr ⟨_, rfl⟩

theorem push_spec {fs : List FrameParts} (hfs : ∀ x ∈ fs, x.Valid) {parser : SseFrameParser}
    {text : JsString} (h : parser.buffer ++ text <+: textOf fs)
    (hfirst : parser.firstPush = true → text.head? ≠ some 0xFEFF) :
    ∃ done todo rest, fs = done ++ todo ∧ parser.buffer ++ text = textOf done ++ rest ∧
      parser.push text = .ok (done.map FrameParts.sse, { buffer := rest, firstPush := false }) ∧
      findBoundary rest = none := by
  obtain ⟨done, todo, rest, hsplit, hs, hdrain, hnone, hbytes⟩ :=
    drain_spec fs hfs h _ (Nat.le_refl _)
  refine ⟨done, todo, rest, hsplit, hs, ?_, hnone⟩
  have hchunk : ¬(parser.firstPush = true ∧ text.head? = some 0xFEFF) := fun hc =>
    hfirst hc.1 hc.2
  rw [SseFrameParser.push]
  simp only [if_neg hchunk, hdrain]
  simp only [bind, Except.bind, Nat.not_lt.mpr hbytes, if_false]
  rfl

/-! ## Values of frames -/

section Round

variable {V : Type} (J : JsonText V)

/-- These frames are the values `vs`: taken between values they deliver them, and the first of
them deliver the first of the values. -/
def Delivers (fs : List FrameParts) (vs : List (StreamKind × V)) : Prop :=
  ∀ r : Values V, r.inside = none →
    (∃ r', (fs.map FrameParts.sse).foldlM (accept J) r = .ok r' ∧ r'.inside = none ∧
      r'.delivered = r.delivered ++ vs) ∧
    ∀ l, l <+: fs → ∃ r' ws, (l.map FrameParts.sse).foldlM (accept J) r = .ok r' ∧ ws <+: vs ∧
      r'.delivered = r.delivered ++ ws

variable {J}

theorem Delivers.nil : Delivers J [] [] := by
  intro r hr
  refine ⟨⟨r, rfl, hr, by simp⟩, ?_⟩
  intro l hl
  rw [List.prefix_nil.mp hl]
  exact ⟨r, [], rfl, List.prefix_refl _, by simp⟩

theorem foldlM_ok_append {r r' : Values V} {xs ys : List SseFrame}
    (h : xs.foldlM (accept J) r = .ok r') :
    (xs ++ ys).foldlM (accept J) r = ys.foldlM (accept J) r' := by
  rw [List.foldlM_append, h]
  rfl

theorem Delivers.append {fs gs : List FrameParts} {vs ws : List (StreamKind × V)}
    (hf : Delivers J fs vs) (hg : Delivers J gs ws) : Delivers J (fs ++ gs) (vs ++ ws) := by
  intro r hr
  obtain ⟨⟨r1, h1, hr1, hd1⟩, hpartial⟩ := hf r hr
  obtain ⟨⟨r2, h2, hr2, hd2⟩, hpartial'⟩ := hg r1 hr1
  refine ⟨⟨r2, ?_, hr2, by rw [hd2, hd1, List.append_assoc]⟩, ?_⟩
  · rw [List.map_append, foldlM_ok_append h1, h2]
  intro l hl
  rcases List.prefix_or_prefix_of_prefix hl (List.prefix_append fs gs) with hl' | ⟨l', rfl⟩
  · obtain ⟨r', us, hr', hus, hd⟩ := hpartial l hl'
    exact ⟨r', us, hr', hus.trans (List.prefix_append _ _), hd⟩
  · obtain ⟨r', us, hr', hus, hd⟩ := hpartial' l' ((List.prefix_append_right_inj fs).mp hl)
    refine ⟨r', vs ++ us, ?_, (List.prefix_append_right_inj _).mpr hus, ?_⟩
    · rw [List.map_append, foldlM_ok_append h1, hr']
    · rw [hd, hd1, List.append_assoc]

theorem streamEventTypes_plain : ∀ t ∈ streamEventTypes,
    t ≠ ascii "stream.begin" ∧ (ascii "stream.").isPrefixOf t = false := by
  decide +kernel

theorem delivers_single {v : V} {eventType : JsString} (htype : eventType ∈ streamEventTypes) :
    Delivers J [(eventType, J.stringify v)] [(.event, v)] := by
  obtain ⟨hbegin, hstream⟩ := streamEventTypes_plain _ htype
  intro r hr
  have haccept : accept J r (FrameParts.sse (eventType, J.stringify v)) =
      .ok { r with delivered := r.delivered ++ [(.event, v)] } := by
    simp only [accept, hr, acceptValue, FrameParts.sse, json, J.parse_stringify]
    simp [bind, Except.bind, hbegin, hstream]
    rfl
  refine ⟨⟨{ r with delivered := r.delivered ++ [(.event, v)] }, ?_, hr, rfl⟩, ?_⟩
  · rw [List.map_cons, List.map_nil, List.foldlM_cons, haccept]
    rfl
  · intro l hl
    rcases List.prefix_cons_iff.mp hl with rfl | ⟨l', rfl, hl'⟩
    · exact ⟨r, [], rfl, List.nil_prefix, by simp⟩
    · rw [List.prefix_nil.mp hl']
      refine ⟨{ r with delivered := r.delivered ++ [(.event, v)] }, [(.event, v)], ?_,
        List.prefix_refl _, rfl⟩
      rw [List.map_cons, List.map_nil, List.foldlM_cons, haccept]
      rfl

theorem accept_begin (kind : StreamKind) {r : Values V} (hr : r.inside = none) :
    accept J r (FrameParts.sse (ascii "stream.begin", beginHeader kind)) =
      .ok { r with inside := some (kind, []) } := by
  have hkind : ∃ header, J.parse (beginHeader kind) = some header ∧
      J.kind header = some kind.name := by
    have hparse := J.parse_kind
    simp only [List.forall_mem_cons] at hparse
    cases kind with
    | snapshot =>
      obtain ⟨header, h1, h2⟩ := Option.map_eq_some_iff.mp hparse.1
      exact ⟨header, h1, h2⟩
    | event =>
      obtain ⟨header, h1, h2⟩ := Option.map_eq_some_iff.mp hparse.2.1
      exact ⟨header, h1, h2⟩
  obtain ⟨header, hparse, hname⟩ := hkind
  have hheader : headerKind J header = .ok kind := by
    rw [headerKind, hname]
    cases kind with
    | snapshot => rfl
    | event =>
      rw [if_neg (by decide)]
      exact if_pos rfl
  simp only [accept, hr, acceptValue, FrameParts.sse, json, hparse]
  simp [bind, Except.bind, hheader]
  rfl

theorem accept_parts (kind : StreamKind) (parts cuts : List JsString) {r : Values V}
    (hr : r.inside = some (kind, cuts)) :
    ((parts.map fun part => (ascii "stream.part", jsonString part)).map FrameParts.sse).foldlM
      (accept J) r = .ok { r with inside := some (kind, cuts ++ parts) } := by
  induction parts generalizing cuts r with
  | nil =>
    rw [List.append_nil, ← hr]
    rfl
  | cons part parts ih =>
    have hparse : J.parse (jsonString part) = some (J.text part) := by
      rw [← J.stringify_text, J.parse_stringify]
    have haccept : accept J r (FrameParts.sse (ascii "stream.part", jsonString part)) =
        .ok { r with inside := some (kind, cuts ++ [part]) } := by
      have hend : ascii "stream.part" ≠ ascii "stream.end" := by decide
      simp only [accept, hr, acceptPart, FrameParts.sse, json, hparse]
      simp [bind, Except.bind, hend, partText, J.asText_text]
      rfl
    rw [List.map_cons, List.map_cons, List.foldlM_cons, haccept]
    refine Eq.trans (ih (cuts ++ [part]) rfl) ?_
    rw [List.append_assoc]
    rfl

theorem accept_end (kind : StreamKind) {cuts : List JsString} {v : V}
    (hcuts : cuts.flatten = J.stringify v) {r : Values V} (hr : r.inside = some (kind, cuts)) :
    accept J r (FrameParts.sse (ascii "stream.end", ascii "\x7b\x7d")) =
      .ok { r with inside := none, delivered := r.delivered ++ [(kind, v)] } := by
  simp only [accept, hr, acceptPart, FrameParts.sse, json, hcuts, J.parse_stringify, if_true]
  rfl

theorem delivers_framed (kind : StreamKind) {cuts : List JsString} {v : V}
    (hcuts : cuts.flatten = J.stringify v) :
    Delivers J ((ascii "stream.begin", beginHeader kind) ::
      cuts.map (fun part => (ascii "stream.part", jsonString part)) ++
      [(ascii "stream.end", ascii "\x7b\x7d")]) [(kind, v)] := by
  intro r hr
  have hopen : ∀ parts : List JsString,
      (((ascii "stream.begin", beginHeader kind) ::
        parts.map fun part => (ascii "stream.part", jsonString part)).map FrameParts.sse).foldlM
        (accept J) r = .ok { r with inside := some (kind, parts) } := by
    intro parts
    rw [List.map_cons, List.foldlM_cons, accept_begin kind hr]
    exact accept_parts kind parts [] rfl
  have hall : (((ascii "stream.begin", beginHeader kind) ::
      cuts.map (fun part => (ascii "stream.part", jsonString part)) ++
      [(ascii "stream.end", ascii "\x7b\x7d")]).map FrameParts.sse).foldlM (accept J) r =
      .ok { r with inside := none, delivered := r.delivered ++ [(kind, v)] } := by
    rw [List.map_append, foldlM_ok_append (hopen cuts), List.map_cons, List.map_nil,
      List.foldlM_cons, accept_end kind hcuts rfl]
    rfl
  refine ⟨⟨_, hall, rfl, rfl⟩, ?_⟩
  intro l hl
  rcases List.prefix_concat_iff.mp hl with rfl | hl
  · exact ⟨_, _, hall, List.prefix_refl _, rfl⟩
  rcases List.prefix_cons_iff.mp hl with rfl | ⟨l', rfl, hl'⟩
  · exact ⟨r, [], rfl, List.nil_prefix, by simp⟩
  · rw [List.prefix_iff_eq_take.mp hl', ← List.map_take]
    exact ⟨_, [], hopen _, List.nil_prefix, by simp⟩

/-- A value on its way. `pieces` is what `stringifyChunked` makes of it. -/
structure Sent (J : JsonText V) where
  value : V
  kind : StreamKind
  eventType : JsString
  pieces : List JsString
  pieces_flatten : pieces.flatten = J.stringify value
  eventType_mem : kind = .event → eventType ∈ streamEventTypes

def Sent.frames (sent : Sent J) : List JsString :=
  sessionJsonFrames sent.pieces sent.kind sent.eventType

def Sent.result (sent : Sent J) : StreamKind × V := (sent.kind, sent.value)

theorem Sent.frames_spec (sent : Sent J) : ∃ fs : List FrameParts,
    fs.map FrameParts.text = sent.frames ∧ (∀ x ∈ fs, x.Valid) ∧ Delivers J fs [sent.result] := by
  rcases sessionJsonFrames_eq sent.pieces sent.kind sent.eventType with
    ⟨hkind, hsmall, hframes⟩ | ⟨cuts, hflatten, hcuts, hframes⟩
  · have htype := sent.eventType_mem hkind
    rw [sent.pieces_flatten] at hframes hsmall
    refine ⟨[(sent.eventType, J.stringify sent.value)], hframes.symm, ?_, ?_⟩
    · rw [List.forall_mem_singleton]
      exact isFrame (streamEventTypes_name _ htype) (J.printable _) (J.paired _)
        (Nat.le_of_lt hsmall)
    · have hresult : sent.result = (.event, sent.value) := by rw [Sent.result, hkind]
      rw [hresult]
      exact delivers_single htype
  · refine ⟨_, ?_, ?_, delivers_framed sent.kind (hflatten.trans sent.pieces_flatten)⟩
    · rw [Sent.frames, hframes, List.map_append, List.map_cons, List.map_map]
      rfl
    · simp only [List.forall_mem_append, List.forall_mem_cons, List.forall_mem_map]
      exact ⟨⟨isFrame_begin sent.kind, fun part hpart => isFrame_part (hcuts part hpart)⟩,
        isFrame_end, by simp⟩

theorem frames_spec (sent : List (Sent J)) : ∃ fs : List FrameParts,
    fs.map FrameParts.text = sent.flatMap Sent.frames ∧ (∀ x ∈ fs, x.Valid) ∧
      Delivers J fs (sent.map Sent.result) := by
  induction sent with
  | nil => exact ⟨[], rfl, by simp, Delivers.nil⟩
  | cons s sent ih =>
    obtain ⟨fs, hfs, hvalid, hdelivers⟩ := s.frames_spec
    obtain ⟨gs, hgs, hvalid', hdelivers'⟩ := ih
    refine ⟨fs ++ gs, ?_, List.forall_mem_append.mpr ⟨hvalid, hvalid'⟩,
      hdelivers.append hdelivers'⟩
    rw [List.map_append, hfs, hgs, List.flatMap_cons]

/-! ## Bytes -/

def bytesOf (frames : List JsString) : List UInt8 := frames.flatMap utf8

theorem bytesOf_frames {fs : List FrameParts} (hfs : ∀ x ∈ fs, x.Valid) :
    bytesOf (fs.map FrameParts.text) = utf8 (textOf fs) ∧ Paired (textOf fs) := by
  induction fs with
  | nil => exact ⟨rfl, by simp [textOf, Paired]⟩
  | cons x fs ih =>
    rw [List.forall_mem_cons] at hfs
    obtain ⟨hbytes, hpaired⟩ := ih hfs.2
    have hx : Paired x.text := (frameText_bytes hfs.1.event_name hfs.1.paired).1
    have htext : textOf (x :: fs) = x.text ++ textOf fs := by simp [textOf]
    unfold bytesOf at hbytes ⊢
    rw [htext, List.map_cons, List.flatMap_cons, hbytes]
    refine ⟨?_, hx.append hpaired⟩
    rw [utf8, utf8, utf8, points_append hx, List.flatMap_append]

def textSoFar (bytes : List UInt8) : JsString := (Decoder.decode {} bytes).2

theorem textSoFar_append (bytes chunk : List UInt8) :
    textSoFar (bytes ++ chunk) =
      textSoFar bytes ++ ((Decoder.decode {} bytes).1.decode chunk).2 := by
  rw [textSoFar, Decoder.decode_append]
  rfl

theorem textSoFar_all {fs : List FrameParts} (hfs : ∀ x ∈ fs, x.Valid) :
    textSoFar (utf8 (textOf fs)) = textOf fs := by
  have hpaired := (bytesOf_frames hfs).2
  rcases textOf_head fs with rfl | ⟨t, ht⟩
  · rfl
  · rw [ht] at hpaired ⊢
    obtain ⟨d, -, -, hdecode⟩ := Decoder.decode_start hpaired (d := {}) rfl (by decide)
    rw [textSoFar, hdecode]

theorem textSoFar_prefix {fs : List FrameParts} (hfs : ∀ x ∈ fs, x.Valid) {bytes : List UInt8}
    (h : bytes <+: utf8 (textOf fs)) : textSoFar bytes <+: textOf fs := by
  obtain ⟨rest, hrest⟩ := h
  have hall := textSoFar_all hfs
  rw [← hrest, textSoFar_append] at hall
  exact ⟨_, hall⟩

/-- The reader has taken the whole frames of the bytes so far, and holds the rest of the text. -/
structure Tracks (J : JsonText V) (fs : List FrameParts) (r : Reader V) (bytes : List UInt8)
    (done todo : List FrameParts) : Prop where
  frames : fs = done ++ todo
  values : (done.map FrameParts.sse).foldlM (accept J) {} = .ok r.values
  text : textOf done ++ r.parser.buffer = textSoFar bytes
  decoder : r.decoder = (Decoder.decode {} bytes).1
  first : r.parser.firstPush = true → textSoFar bytes = []
  boundary : findBoundary r.parser.buffer = none

theorem Tracks.init (fs : List FrameParts) : Tracks J fs {} [] [] fs where
  frames := rfl
  values := rfl
  text := rfl
  decoder := rfl
  first := fun _ => rfl
  boundary := rfl

variable {fs : List FrameParts} {vs : List (StreamKind × V)}

theorem Tracks.receive (hfs : ∀ x ∈ fs, x.Valid) (hdelivers : Delivers J fs vs) {r : Reader V}
    {bytes : List UInt8} {done todo : List FrameParts} (h : Tracks J fs r bytes done todo)
    {chunk : List UInt8} (hbytes : bytes ++ chunk <+: utf8 (textOf fs)) :
    ∃ r' done' todo', Web.receive J r chunk = .ok r' ∧
      Tracks J fs r' (bytes ++ chunk) done' todo' := by
  have hinit := textSoFar_prefix hfs hbytes
  rw [textSoFar_append, ← h.text, ← h.decoder, h.frames, textOf_append, List.append_assoc,
    List.prefix_append_right_inj] at hinit
  have htodo : ∀ x ∈ todo, x.Valid := fun x hx =>
    hfs x (h.frames ▸ List.mem_append_right done hx)
  have hfirst : r.parser.firstPush = true → (r.decoder.decode chunk).2.head? ≠ some 0xFEFF := by
    intro hpush hhead
    have hempty := h.text.trans (h.first hpush)
    obtain ⟨-, hbuffer⟩ := List.append_eq_nil_iff.mp hempty
    rw [hbuffer, List.nil_append] at hinit
    rcases textOf_head todo with rfl | ⟨t, ht⟩
    · rw [List.prefix_nil.mp hinit] at hhead
      cases hhead
    · rw [ht] at hinit
      rcases List.prefix_cons_iff.mp hinit with hnil | ⟨t', hcons, -⟩
      · rw [hnil] at hhead
        cases hhead
      · rw [hcons] at hhead
        cases hhead
  obtain ⟨new, todo', rest, hsplit, htext, hpush, hnone⟩ := push_spec htodo hinit hfirst
  have hdone : done ++ new <+: fs := ⟨todo', by rw [h.frames, hsplit, List.append_assoc]⟩
  obtain ⟨-, hpartial⟩ := hdelivers {} rfl
  obtain ⟨values, ws, hvalues, -, -⟩ := hpartial _ hdone
  have hfold := hvalues
  rw [List.map_append, foldlM_ok_append h.values] at hfold
  refine ⟨⟨(r.decoder.decode chunk).1, ⟨rest, false⟩, values⟩, done ++ new, todo', ?_, ?_⟩
  · simp only [Web.receive, hpush]
    simp only [bind, Except.bind, hfold]
    rfl
  · refine ⟨by rw [h.frames, hsplit, List.append_assoc], hvalues, ?_, ?_, ?_, hnone⟩
    · rw [textOf_append, List.append_assoc, ← htext, textSoFar_append, ← h.text, ← h.decoder,
        List.append_assoc]
    · rw [Decoder.decode_append, h.decoder]
    · intro hc
      cases hc

theorem Tracks.foldlM (hfs : ∀ x ∈ fs, x.Valid) (hdelivers : Delivers J fs vs)
    (chunks : List (List UInt8)) {r : Reader V} {bytes : List UInt8} {done todo : List FrameParts}
    (h : Tracks J fs r bytes done todo)
    (hbytes : bytes ++ chunks.flatten <+: utf8 (textOf fs)) :
    ∃ r' done' todo', chunks.foldlM (Web.receive J) r = .ok r' ∧
      Tracks J fs r' (bytes ++ chunks.flatten) done' todo' := by
  induction chunks generalizing r bytes done todo with
  | nil =>
    rw [List.flatten_nil, List.append_nil]
    exact ⟨r, done, todo, rfl, h⟩
  | cons chunk chunks ih =>
    rw [List.flatten_cons, ← List.append_assoc] at hbytes ⊢
    obtain ⟨r1, done1, todo1, hreceive, h1⟩ :=
      h.receive hfs hdelivers ((List.prefix_append _ _).trans hbytes)
    obtain ⟨r2, done2, todo2, hfold, h2⟩ := ih h1 hbytes
    refine ⟨r2, done2, todo2, ?_, h2⟩
    rw [List.foldlM_cons, hreceive]
    exact hfold

theorem Tracks.delivered (hfs : ∀ x ∈ fs, x.Valid) (hdelivers : Delivers J fs vs) {r : Reader V}
    {bytes : List UInt8} {done todo : List FrameParts} (h : Tracks J fs r bytes done todo) :
    r.values.delivered <+: vs ∧
      (bytes = utf8 (textOf fs) → r.values.inside = none ∧ r.values.delivered = vs) := by
  obtain ⟨⟨all, hall, hinside, hvs⟩, hpartial⟩ := hdelivers {} rfl
  constructor
  · obtain ⟨values, ws, hvalues, hws, hdelivered⟩ := hpartial done ⟨todo, h.frames.symm⟩
    have heq := h.values.symm.trans hvalues
    cases heq
    rwa [hdelivered, List.nil_append]
  · intro hbytes
    have htext := h.text
    rw [hbytes, textSoFar_all hfs, h.frames, textOf_append] at htext
    have hbuffer : r.parser.buffer = textOf todo := List.append_cancel_left htext
    have htodo : todo = [] := by
      cases todo with
      | nil => rfl
      | cons x todo =>
        have hx : x.Valid := hfs x (by rw [h.frames]; simp)
        have hboundary := h.boundary
        have hcons : textOf (x :: todo) = x.text ++ textOf todo := by simp [textOf]
        rw [hbuffer, hcons] at hboundary
        cases hboundary.symm.trans (findBoundary_frame hx (textOf todo))
    have hdone : fs = done := by rw [h.frames, htodo, List.append_nil]
    rw [hdone] at hall
    have heq := h.values.symm.trans hall
    cases heq
    exact ⟨hinside, by rw [hvs]; rfl⟩

/-- Every frame is within the limit. However the network cuts the bytes, the reader delivers the
values as they were sent; while bytes are missing, it has delivered the first of them and no part
of another. -/
theorem stream_round_trip (J : JsonText V) (sent : List (Sent J)) :
    (∀ f ∈ sent.flatMap Sent.frames, (utf8 f).length ≤ maxFrameBytes) ∧
    ∀ chunks : List (List UInt8),
      (chunks.flatten = bytesOf (sent.flatMap Sent.frames) →
        consumeResponse J chunks = .ok (sent.map Sent.result)) ∧
      (chunks.flatten <+: bytesOf (sent.flatMap Sent.frames) →
        ∃ r, chunks.foldlM (receive J) {} = .ok r ∧
          r.values.delivered <+: sent.map Sent.result) := by
  obtain ⟨fs, hframes, hfs, hdelivers⟩ := frames_spec sent
  rw [← hframes, (bytesOf_frames hfs).1]
  refine ⟨?_, ?_⟩
  · rw [List.forall_mem_map]
    intro x hx
    have hvalid := hfs x hx
    have hpaired : Paired x.text := (frameText_bytes hvalid.event_name hvalid.paired).1
    rw [length_utf8 hpaired]
    exact hvalid.small
  intro chunks
  have hrun : chunks.flatten <+: utf8 (textOf fs) → ∃ r done todo,
      chunks.foldlM (receive J) {} = .ok r ∧ Tracks J fs r chunks.flatten done todo :=
    fun h => (Tracks.init fs).foldlM hfs hdelivers chunks h
  constructor
  · intro hall
    obtain ⟨r, done, todo, hr, htracks⟩ := hrun (hall ▸ List.prefix_refl _)
    obtain ⟨hinside, hvs⟩ := (htracks.delivered hfs hdelivers).2 hall
    rw [consumeResponse, hr]
    simp only [bind, Except.bind, hinside, hvs]
    rfl
  · intro hpart
    obtain ⟨r, done, todo, hr, htracks⟩ := hrun hpart
    exact ⟨r, hr, (htracks.delivered hfs hdelivers).1⟩

end Round

/-- A snapshot and a small event. -/
def sampleSent : List (Sent textJson) :=
  [{ value := .text (ascii "a"), kind := .snapshot, eventType := [],
     pieces := [ascii "\"", ascii "a\""], pieces_flatten := rfl, eventType_mem := nofun },
   { value := .text (ascii "b"), kind := .event, eventType := ascii "turn.completed",
     pieces := [ascii "\"b\""], pieces_flatten := rfl, eventType_mem := fun _ => by decide +kernel }]

/-- The bytes one at a time. -/
theorem stream_round_trip_bytes :
    consumeResponse textJson ((bytesOf (sampleSent.flatMap Sent.frames)).map fun b => [b]) =
      .ok (sampleSent.map Sent.result) :=
  ((stream_round_trip textJson sampleSent).2 _).1 (by rw [← List.flatMap_def, List.flatMap_singleton'])

end Web
end PiCloud
