import Mathlib.Logic.Function.Basic
import PiCloud.Lib.Run
import PiCloud.Protocol.ToolPreview

/-!
# Protocol.PreviewPipeline

A producer, `n` channels in a row and a viewer, joined by wires that may lose, repeat and reorder
what is on them: a delivery takes any update ever put on the wire, and none need be delivered.

* `Sound`: every update on a wire says something true of the states the producer had, and every
  buffer holds nothing or one of these states. It holds in every reachable pipeline.
* `Lossless`: the runs in which every wire is a queue. There `Linked` relates what a channel last
  sent to what the next buffer makes of the wire between them.
-/

namespace PiCloud
namespace Protocol

open Lib

structure Pipeline where
  /-- the states of the producer, newest first -/
  produced : List ToolPreviewState := []
  /-- everything ever put on a wire, oldest first; hop `i` reads wire `i` and writes `i + 1` -/
  wires : Nat → List ToolPreviewUpdate := fun _ => []
  /-- how many deliveries each wire has made -/
  delivered : Nat → Nat := fun _ => 0
  hops : Nat → ToolPreviewChannel := fun _ => {}
  viewer : ToolPreviewBuffer := {}

inductive PipelineAction where
  /-- the producer moves to a new state and sends it, as a whole where it is told to -/
  | produce (next : ToolPreviewState) (reset : Bool)
  | deliver (i : Nat) (u : ToolPreviewUpdate)
  | take (i : Nat)
  | resync (i : Nat)
  /-- the preview was forgotten and the next update finds a fresh channel -/
  | replace (i : Nat)
  | display (u : ToolPreviewUpdate)

namespace Pipeline

def emit (p : Pipeline) (i : Nat) (u : ToolPreviewUpdate) : Pipeline :=
  { p with wires := Function.update p.wires i (p.wires i ++ [u]) }

def setHop (p : Pipeline) (i : Nat) (c : ToolPreviewChannel) : Pipeline :=
  { p with hops := Function.update p.hops i c }

def arrive (p : Pipeline) (i : Nat) : Pipeline :=
  { p with delivered := Function.update p.delivered i (p.delivered i + 1) }

inductive Step (n : Nat) : Pipeline → PipelineAction → Pipeline → Prop where
  | produce {p : Pipeline} {next : ToolPreviewState} {reset : Bool} :
      (∀ s ∈ p.produced, s.revision < next.revision) →
      Step n p (.produce next reset)
        ({ p with produced := next :: p.produced }.emit 0
          (previewUpdate p.produced.head? next reset))
  | deliver {p : Pipeline} {i : Nat} {u : ToolPreviewUpdate} : i < n → u ∈ p.wires i →
      Step n p (.deliver i u) ((p.setHop i ((p.hops i).receive u)).arrive i)
  | take {p : Pipeline} {i : Nat} {u : ToolPreviewUpdate} {c : ToolPreviewChannel} : i < n →
      (p.hops i).take = some (u, c) → Step n p (.take i) ((p.setHop i c).emit (i + 1) u)
  | resync {p : Pipeline} {i : Nat} : Step n p (.resync i) (p.setHop i (p.hops i).resync)
  | replace {p : Pipeline} {i : Nat} : Step n p (.replace i) (p.setHop i {})
  | display {p : Pipeline} {u : ToolPreviewUpdate} : u ∈ p.wires n →
      Step n p (.display u) ({ p with viewer := p.viewer.receive u }.arrive n)

end Pipeline

def pipeline (n : Nat) : System Pipeline PipelineAction where
  init p := p = {}
  step := Pipeline.Step n

/-! ## Updates and buffers against the producer's states -/

section Against

variable {states : List ToolPreviewState}

/-- `u` carries a state of the producer, or leads from one of them to another. -/
def Encodes (states : List ToolPreviewState) : ToolPreviewUpdate → Prop
  | .reset r t unavailable => (⟨r, t, unavailable⟩ : ToolPreviewState) ∈ states
  | .delta r base dropHead keepPrefix t =>
    ∃ prev next, prev ∈ states ∧ next ∈ states ∧ prev.revision = base ∧ next.revision = r ∧
      next.unavailable = false ∧ deltaText prev.text dropHead keepPrefix t = next.text

theorem Encodes.mono {states' : List ToolPreviewState} {u : ToolPreviewUpdate}
    (hs : ∀ s ∈ states, s ∈ states') (h : Encodes states u) : Encodes states' u := by
  cases u with
  | reset r t unavailable => exact hs _ h
  | delta r base d k t =>
    obtain ⟨prev, next, hp, hn, h⟩ := h
    exact ⟨prev, next, hs _ hp, hs _ hn, h⟩

theorem previewUpdate_encodes {previous : Option ToolPreviewState} {next : ToolPreviewState}
    (reset : Bool) (hp : ∀ p ∈ previous, p ∈ states) (hn : next ∈ states) :
    Encodes states (previewUpdate previous next reset) := by
  rcases previewUpdate_cases previous next reset with h | ⟨p, d, k, rfl, _, hna, _, h, htext⟩
  · rw [h]; exact hn
  · rw [h]; exact ⟨p, next, hp p rfl, hn, rfl, rfl, hna, htext⟩

def Distinct (states : List ToolPreviewState) : Prop :=
  ∀ s ∈ states, ∀ t ∈ states, s.revision = t.revision → s = t

def Traced (states : List ToolPreviewState) (b : ToolPreviewBuffer) : Prop :=
  ∀ s, b.current = some s → s ∈ states ∧ s.revision = b.revision ∧ s.Fits

theorem Traced.mono {states' : List ToolPreviewState} {b : ToolPreviewBuffer}
    (hs : ∀ s ∈ states, s ∈ states') (h : Traced states b) : Traced states' b :=
  fun s hc => ⟨hs s (h s hc).1, (h s hc).2⟩

theorem checkUpdate_revision {u : ToolPreviewUpdate} (h : checkUpdate u = true) :
    checkRevision u.revision = true := by
  cases u with
  | reset r t unavailable => simp only [checkUpdate, Bool.and_eq_true] at h; exact h.1
  | delta r base d k t => simp only [checkUpdate, Bool.and_eq_true] at h; exact h.1.1.1.1

theorem receive_traced {b : ToolPreviewBuffer} {u : ToolPreviewUpdate} (hd : Distinct states)
    (hu : Encodes states u) (hb : Traced states b) : Traced states (b.receive u) := by
  rcases b.receive_cases u with h | ⟨b', hacc, h⟩
  · rw [h]; exact hb
  · rw [h]
    obtain ⟨hparse, ⟨hf, _⟩ | ⟨_, _, hrev, hcur⟩⟩ := accept_cases hacc
    · cases hf
    obtain ⟨hcheck, hbytes, _⟩ := (parse_ok_iff u).mp hparse
    have hcr := checkUpdate_revision hcheck
    intro s hs
    rw [hrev]
    rcases hcur with ⟨t, unavailable, hu', hc⟩ | ⟨base, d, k, t, hu', hc⟩
    · rw [hc] at hs
      cases hs
      rw [hu'] at hu hbytes
      exact ⟨hu, rfl, hcr, hbytes⟩
    · rw [hc] at hs
      obtain ⟨p, hp, hbase, _, rfl, hfit⟩ := applyDelta_some hs
      rw [hu'] at hu
      obtain ⟨prev, next, hprev, hnext, hpr, hnr, hna, htext⟩ := hu
      have hpp : p = prev := hd p (hb p hp).1 prev hprev (by rw [hbase, hpr])
      subst hpp
      have hn : (⟨u.revision, deltaText p.text d k t, false⟩ : ToolPreviewState) = next := by
        rw [htext, ← hnr, ← hna]
      exact ⟨hn ▸ hnext, rfl, hcr, hfit⟩

/-- A channel's buffer is traced, and what it sent last is an earlier state of its view. -/
structure Held (states : List ToolPreviewState) (c : ToolPreviewChannel) : Prop where
  buffer : Traced states c.buffer
  sent : ∀ s, c.sent = some s → s ∈ states ∧ s.Fits ∧ s.revision ≤ c.buffer.revision
  pending : ∀ s, c.sent = some s → c.pending = true → s.revision < c.buffer.revision

theorem Held.mono {states' : List ToolPreviewState} {c : ToolPreviewChannel}
    (hs : ∀ s ∈ states, s ∈ states') (h : Held states c) : Held states' c :=
  ⟨h.buffer.mono hs, fun s hc => ⟨hs s (h.sent s hc).1, (h.sent s hc).2⟩, h.pending⟩

theorem held_fresh : Held states {} :=
  ⟨nofun, nofun, nofun⟩

theorem channel_buffer_receive (c : ToolPreviewChannel) (u : ToolPreviewUpdate) :
    (c.receive u).buffer = c.buffer.receive u := by
  rcases c.receive_cases u with h | ⟨b', hacc, ⟨_, h⟩ | ⟨s, _, h⟩⟩
  · rw [h]
    unfold ToolPreviewChannel.receive ToolPreviewChannel.accept at h
    unfold ToolPreviewBuffer.receive
    cases ha : c.buffer.accept u with
    | error e => rfl
    | ok r =>
      obtain ⟨fresh, b'⟩ := r
      rw [ha] at h
      cases fresh with
      | false => exact (congrArg ToolPreviewChannel.buffer h).symm
      | true =>
        simp only [] at h ⊢
        cases hb : b'.current with
        | none => rw [hb] at h; exact (congrArg ToolPreviewChannel.buffer h).symm
        | some s => rw [hb] at h; exact (congrArg ToolPreviewChannel.buffer h).symm
  · rw [h]; simp [ToolPreviewBuffer.receive, hacc]
  · rw [h]; simp [ToolPreviewBuffer.receive, hacc]

theorem accept_advances {b b' : ToolPreviewBuffer} {u : ToolPreviewUpdate}
    (h : b.accept u = .ok (true, b')) : b.revision < b'.revision ∧ b'.revision = u.revision := by
  rcases (accept_cases h).2 with ⟨hf, _⟩ | ⟨_, hlt, hrev, _⟩
  · cases hf
  · exact ⟨by omega, hrev⟩

theorem receive_held {c : ToolPreviewChannel} {u : ToolPreviewUpdate} (hd : Distinct states)
    (hu : Encodes states u) (hc : Held states c) : Held states (c.receive u) := by
  have hbuf : Traced states (c.receive u).buffer := by
    rw [channel_buffer_receive]; exact receive_traced hd hu hc.buffer
  rcases c.receive_cases u with h | ⟨b', hacc, ⟨_, h⟩ | ⟨s, _, h⟩⟩
  · rw [h]; exact hc
  · rw [h] at hbuf ⊢
    exact ⟨hbuf, nofun, nofun⟩
  · rw [h] at hbuf ⊢
    have hadv := (accept_advances hacc).1
    refine ⟨hbuf, fun s hs => ?_, fun s hs _ => ?_⟩
    · obtain ⟨hm, hf, hle⟩ := hc.sent s hs
      exact ⟨hm, hf, Nat.le_of_lt (Nat.lt_of_le_of_lt hle hadv)⟩
    · exact Nat.lt_of_le_of_lt (hc.sent s hs).2.2 hadv

theorem take_some {c c' : ToolPreviewChannel} {u : ToolPreviewUpdate}
    (h : c.take = some (u, c')) :
    ∃ s, c.buffer.current = some s ∧ c.pending = true ∧ u = previewUpdate c.sent s c.reset ∧
      c' = { c with sent := some s, pending := false, reset := false } := by
  unfold ToolPreviewChannel.take ToolPreviewChannel.current at h
  cases hcur : c.buffer.current with
  | none => rw [hcur] at h; cases h
  | some s =>
    rw [hcur] at h
    simp only [] at h
    split at h
    · rename_i hp
      cases h
      exact ⟨s, rfl, hp, rfl, rfl⟩
    · cases h

theorem take_held {c c' : ToolPreviewChannel} {u : ToolPreviewUpdate} (hc : Held states c)
    (h : c.take = some (u, c')) :
    Held states c' ∧ Encodes states u ∧ parseToolPreviewUpdate u = .ok u := by
  obtain ⟨s, hcur, hpend, rfl, rfl⟩ := take_some h
  obtain ⟨hm, hrev, hfit⟩ := hc.buffer s hcur
  refine ⟨⟨hc.buffer, ?_, ?_⟩, ?_, ?_⟩
  · intro t ht
    cases ht
    exact ⟨hm, hfit, Nat.le_of_eq hrev⟩
  · intro t _ hp
    cases hp
  · exact previewUpdate_encodes _ (fun p hp => (hc.sent p hp).1) hm
  · exact previewUpdate_parses _ hfit
      (fun p hp => ⟨(hc.sent p hp).2.1, by have := hc.pending p hp hpend; omega⟩)

end Against

/-! ## Every run -/

structure Sound (n : Nat) (p : Pipeline) : Prop where
  distinct : Distinct p.produced
  wires : ∀ i, ∀ u ∈ p.wires i, Encodes p.produced u
  parses : ∀ i, ∀ u ∈ p.wires (i + 1), parseToolPreviewUpdate u = .ok u
  hops : ∀ i, Held p.produced (p.hops i)
  viewer : Traced p.produced p.viewer

theorem mem_emit {p : Pipeline} {i j : Nat} {u v : ToolPreviewUpdate}
    (h : v ∈ (p.emit i u).wires j) : v ∈ p.wires j ∨ (j = i ∧ v = u) := by
  unfold Pipeline.emit at h
  by_cases hj : j = i
  · subst hj
    simp only [Function.update_self, List.mem_append, List.mem_singleton] at h
    rcases h with h | h
    · exact .inl h
    · exact .inr ⟨rfl, h⟩
  · simp only [Function.update_of_ne hj] at h
    exact .inl h

theorem setHop_held {p : Pipeline} {i : Nat} {c : ToolPreviewChannel}
    (hp : ∀ j, Held p.produced (p.hops j)) (hc : Held p.produced c) (j : Nat) :
    Held p.produced ((p.setHop i c).hops j) := by
  unfold Pipeline.setHop
  by_cases hj : j = i
  · subst hj; simpa using hc
  · simpa [Function.update_of_ne hj] using hp j

theorem distinct_cons {states : List ToolPreviewState} {next : ToolPreviewState}
    (hd : Distinct states) (hlt : ∀ s ∈ states, s.revision < next.revision) :
    Distinct (next :: states) := by
  intro s hs t ht heq
  rcases List.mem_cons.mp hs with hs | hs <;> rcases List.mem_cons.mp ht with ht | ht
  · rw [hs, ht]
  · have := hlt t ht; rw [← heq, hs] at this; omega
  · have := hlt s hs; rw [heq, ht] at this; omega
  · exact hd s hs t ht heq

theorem step_sound {n : Nat} {p q : Pipeline} {a : PipelineAction} (hp : Sound n p)
    (h : Pipeline.Step n p a q) : Sound n q := by
  cases h with
  | @produce next reset hlt =>
    have hmono : ∀ s ∈ p.produced, s ∈ next :: p.produced := fun s hs => List.mem_cons_of_mem _ hs
    refine ⟨distinct_cons hp.distinct hlt, ?_, ?_, fun i => (hp.hops i).mono hmono,
      hp.viewer.mono hmono⟩
    · intro i u hu
      rcases mem_emit hu with hu | ⟨_, rfl⟩
      · exact (hp.wires i u hu).mono hmono
      · exact previewUpdate_encodes _ (fun s hs => hmono s (List.mem_of_mem_head? hs))
          (List.mem_cons_self ..)
    · intro i u hu
      rcases mem_emit hu with hu | ⟨hi, _⟩
      · exact hp.parses i u hu
      · omega
  | @deliver i u hi hu =>
    exact ⟨hp.distinct, hp.wires, hp.parses,
      setHop_held hp.hops (receive_held hp.distinct (hp.wires i u hu) (hp.hops i)), hp.viewer⟩
  | @take i u c hi htake =>
    obtain ⟨hc, henc, hparse⟩ := take_held (hp.hops i) htake
    refine ⟨hp.distinct, ?_, ?_, setHop_held hp.hops hc, hp.viewer⟩
    · intro j v hv
      rcases mem_emit hv with hv | ⟨_, rfl⟩
      · exact hp.wires j v hv
      · exact henc
    · intro j v hv
      rcases mem_emit hv with hv | ⟨_, rfl⟩
      · exact hp.parses j v hv
      · exact hparse
  | @resync i =>
    refine ⟨hp.distinct, hp.wires, hp.parses, setHop_held hp.hops ?_, hp.viewer⟩
    exact ⟨(hp.hops i).buffer, nofun, nofun⟩
  | @replace i =>
    exact ⟨hp.distinct, hp.wires, hp.parses, setHop_held hp.hops held_fresh, hp.viewer⟩
  | @display u hu =>
    exact ⟨hp.distinct, hp.wires, hp.parses, hp.hops,
      receive_traced hp.distinct (hp.wires n u hu) hp.viewer⟩

theorem sound_init (n : Nat) : Sound n {} :=
  ⟨nofun, nofun, nofun,
    fun _ => held_fresh, nofun⟩

theorem reach_sound {n : Nat} {as : List PipelineAction} {p : Pipeline}
    (h : Reach (pipeline n) as p) : Sound n p := by
  refine Reach.invariant (Sound n) ?_ ?_ h
  · intro s hs
    cases hs
    exact sound_init n
  · intro s a t hs hst
    exact step_sound hs hst

/-! ## Runs that lose nothing -/

namespace Pipeline

/-- Wires are queues: a delivery takes the oldest update not yet delivered, and no preview is
forgotten on the way. The states fit the wire, as those of the real producer do. -/
def Lossless (n : Nat) (p : Pipeline) : PipelineAction → Prop
  | .produce next _ => next.Fits
  | .deliver i u => (p.wires i)[p.delivered i]? = some u
  | .display u => (p.wires n)[p.delivered n]? = some u
  | .replace _ => False
  | .take _ => True
  | .resync _ => True

/-- The buffer that reads wire `i`. -/
def reader (n : Nat) (p : Pipeline) (i : Nat) : ToolPreviewBuffer :=
  if i < n then (p.hops i).buffer else p.viewer

def inFlight (p : Pipeline) (i : Nat) : List ToolPreviewUpdate :=
  (p.wires i).drop (p.delivered i)

/-- What the reader of wire `i` will have made of everything now on the wire. -/
def settled (n : Nat) (p : Pipeline) (i : Nat) : ToolPreviewBuffer :=
  (p.inFlight i).foldl ToolPreviewBuffer.receive (p.reader n i)

end Pipeline

theorem receive_previewUpdate {b : ToolPreviewBuffer} {previous : Option ToolPreviewState}
    {next : ToolPreviewState} (reset : Bool) (hfit : next.Fits)
    (hprev : ∀ p ∈ previous, p.Fits ∧ p.revision < next.revision) (hlt : b.revision < next.revision)
    (hb : ∀ p, previous = some p → b.current = some p) :
    b.receive (previewUpdate previous next reset) = ⟨next.revision, some next⟩ := by
  have hparse := previewUpdate_parses reset hfit hprev
  have hrev := previewUpdate_revision previous next reset
  unfold ToolPreviewBuffer.receive ToolPreviewBuffer.accept
  rw [hparse]
  simp only [hrev, if_neg (Nat.not_le.mpr hlt)]
  rcases previewUpdate_cases previous next reset with h | ⟨p, d, k, rfl, hpa, hna, hle, h, htext⟩
  · rw [h]
  · rw [h]
    simp only [applyDelta, hb p rfl, hpa, Bool.false_or, ne_eq, not_true_eq_false, decide_false,
      Bool.false_eq_true, if_false, if_neg (Nat.not_lt.mpr hle)]
    unfold deltaText at htext
    rw [htext, if_neg (Nat.not_lt.mpr hfit.bytes), ← hna]

/-- A channel against what the next buffer will have made of the wire between them. -/
structure Linked (c : ToolPreviewChannel) (e : ToolPreviewBuffer) : Prop where
  behind : e.revision ≤ c.buffer.revision
  sent : ∀ s, c.sent = some s → e.current = some s
  quiet : ∀ s, c.buffer.current = some s → c.pending = false → e.current = some s
  waiting : c.pending = true → e.revision < c.buffer.revision

theorem linked_receive {c : ToolPreviewChannel} {e : ToolPreviewBuffer} (u : ToolPreviewUpdate)
    (h : Linked c e) : Linked (c.receive u) e := by
  rcases c.receive_cases u with hc | ⟨b', hacc, ⟨hn, hc⟩ | ⟨s, hs, hc⟩⟩
  · rw [hc]; exact h
  · rw [hc]
    have hadv := (accept_advances hacc).1
    refine ⟨Nat.le_of_lt (Nat.lt_of_le_of_lt h.behind hadv), nofun, fun s hs _ => ?_, nofun⟩
    rw [hn] at hs
    cases hs
  · rw [hc]
    have hadv := (accept_advances hacc).1
    exact ⟨Nat.le_of_lt (Nat.lt_of_le_of_lt h.behind hadv), h.sent, nofun,
      fun _ => Nat.lt_of_le_of_lt h.behind hadv⟩

theorem linked_resync {c : ToolPreviewChannel} {e : ToolPreviewBuffer} (h : Linked c e) :
    Linked c.resync e :=
  ⟨h.behind, nofun, h.quiet, h.waiting⟩

theorem linked_take {states : List ToolPreviewState} {c c' : ToolPreviewChannel}
    {e : ToolPreviewBuffer} {u : ToolPreviewUpdate} (hc : Held states c) (h : Linked c e)
    (ht : c.take = some (u, c')) : Linked c' (e.receive u) := by
  obtain ⟨s, hcur, hpend, rfl, rfl⟩ := take_some ht
  obtain ⟨_, hrev, hfit⟩ := hc.buffer s hcur
  have hwait := h.waiting hpend
  have he : e.receive (previewUpdate c.sent s c.reset) = ⟨s.revision, some s⟩ := by
    refine receive_previewUpdate c.reset hfit (fun p hp => ⟨(hc.sent p hp).2.1, ?_⟩) ?_ h.sent
    · have := hc.pending p hp hpend; omega
    · omega
  rw [he]
  refine ⟨Nat.le_of_eq hrev, fun t ht => ht, fun t hcur' _ => ?_, nofun⟩
  rw [hcur] at hcur'
  exact hcur'

/-! ### What a step does to what the readers will have made of their wires -/

section Settled

variable {n : Nat} {p : Pipeline}

theorem settled_setHop {i j : Nat} {c : ToolPreviewChannel} (hij : j ≠ i) :
    (p.setHop i c).settled n j = p.settled n j := by
  simp [Pipeline.settled, Pipeline.inFlight, Pipeline.reader, Pipeline.setHop,
    Function.update_of_ne hij]

theorem settled_setHop_same {i : Nat} {c : ToolPreviewChannel}
    (hc : c.buffer = (p.hops i).buffer) (j : Nat) :
    (p.setHop i c).settled n j = p.settled n j := by
  by_cases hij : j = i
  · subst hij
    simp [Pipeline.settled, Pipeline.inFlight, Pipeline.reader, Pipeline.setHop, hc]
  · exact settled_setHop hij

theorem settled_emit {i : Nat} {u : ToolPreviewUpdate} (hle : p.delivered i ≤ (p.wires i).length)
    (j : Nat) :
    (p.emit i u).settled n j =
      if j = i then (p.settled n i).receive u else p.settled n j := by
  by_cases hij : j = i
  · subst hij
    simp [Pipeline.settled, Pipeline.inFlight, Pipeline.reader, Pipeline.emit,
      List.drop_append_of_le_length hle]
  · simp [Pipeline.settled, Pipeline.inFlight, Pipeline.reader, Pipeline.emit, hij]

theorem drop_eq_cons {α : Type} {l : List α} {k : Nat} {a : α} (h : l[k]? = some a) :
    l.drop k = a :: l.drop (k + 1) := by
  obtain ⟨hlt, rfl⟩ := List.getElem?_eq_some_iff.mp h
  exact List.drop_eq_getElem_cons hlt

theorem settled_deliver {i : Nat} {u : ToolPreviewUpdate} (hi : i < n)
    (hu : (p.wires i)[p.delivered i]? = some u) (j : Nat) :
    ((p.setHop i ((p.hops i).receive u)).arrive i).settled n j = p.settled n j := by
  by_cases hij : j = i
  · subst hij
    simp [Pipeline.settled, Pipeline.inFlight, Pipeline.reader, Pipeline.setHop, Pipeline.arrive,
      hi, drop_eq_cons hu, channel_buffer_receive]
  · simp [Pipeline.settled, Pipeline.inFlight, Pipeline.reader, Pipeline.setHop, Pipeline.arrive,
      Function.update_of_ne hij]

theorem settled_display {u : ToolPreviewUpdate} (hu : (p.wires n)[p.delivered n]? = some u)
    (j : Nat) (hj : j ≤ n) :
    ({ p with viewer := p.viewer.receive u }.arrive n).settled n j = p.settled n j := by
  by_cases hij : j = n
  · subst hij
    simp [Pipeline.settled, Pipeline.inFlight, Pipeline.reader, Pipeline.arrive, drop_eq_cons hu]
  · have hlt : j < n := by omega
    simp [Pipeline.settled, Pipeline.inFlight, Pipeline.reader, Pipeline.arrive, hlt,
      Function.update_of_ne hij]

end Settled

def newest : List ToolPreviewState → ToolPreviewBuffer
  | [] => {}
  | s :: _ => ⟨s.revision, some s⟩

/-- In a lossless run each link keeps `Linked`, and the first reader will have made the newest
state of what is on the producer's wire. -/
structure Following (n : Nat) (p : Pipeline) : Prop where
  sound : Sound n p
  fits : ∀ s ∈ p.produced, s.Fits
  delivered : ∀ i, p.delivered i ≤ (p.wires i).length
  first : p.settled n 0 = newest p.produced
  links : ∀ i, i < n → Linked (p.hops i) (p.settled n (i + 1))

theorem following_init (n : Nat) : Following n {} := by
  refine ⟨sound_init n, nofun, fun i => Nat.le_refl 0, ?_, fun i _ => ⟨?_, nofun, nofun, nofun⟩⟩
  · by_cases h : 0 < n <;> simp [Pipeline.settled, Pipeline.inFlight, Pipeline.reader, newest, h]
  · by_cases h : i + 1 < n <;> simp [Pipeline.settled, Pipeline.inFlight, Pipeline.reader, h]

theorem delivered_emit {p : Pipeline} {i : Nat} {u : ToolPreviewUpdate}
    (h : ∀ j, p.delivered j ≤ (p.wires j).length) (j : Nat) :
    (p.emit i u).delivered j ≤ ((p.emit i u).wires j).length := by
  have := h j
  by_cases hij : j = i
  · subst hij; simp [Pipeline.emit]; omega
  · simpa [Pipeline.emit, Function.update_of_ne hij] using this

theorem delivered_arrive {p : Pipeline} {i : Nat} {u : ToolPreviewUpdate}
    (h : ∀ j, p.delivered j ≤ (p.wires j).length) (hu : (p.wires i)[p.delivered i]? = some u)
    (j : Nat) : (p.arrive i).delivered j ≤ ((p.arrive i).wires j).length := by
  have hlt := (List.getElem?_eq_some_iff.mp hu).1
  by_cases hij : j = i
  · subst hij; simp [Pipeline.arrive]; omega
  · simpa [Pipeline.arrive, Function.update_of_ne hij] using h j

theorem settled_produce {n : Nat} {p : Pipeline} {next : ToolPreviewState} {reset : Bool}
    (hp : Following n p) (hlt : ∀ s ∈ p.produced, s.revision < next.revision)
    (hfit : next.Fits) :
    (p.settled n 0).receive (previewUpdate p.produced.head? next reset) =
      ⟨next.revision, some next⟩ := by
  rw [hp.first]
  have hpos : 0 < next.revision := by
    have := hfit.revision
    simp only [checkRevision, Bool.and_eq_true, decide_eq_true_eq] at this
    omega
  cases hpr : p.produced with
  | nil => exact receive_previewUpdate reset hfit nofun hpos nofun
  | cons s rest =>
    have hs : s ∈ p.produced := by rw [hpr]; exact List.mem_cons_self ..
    refine receive_previewUpdate reset hfit ?_ (hlt s hs) (fun q hq => hq)
    intro q hq
    cases hq
    exact ⟨hp.fits s hs, hlt s hs⟩

theorem step_following {n : Nat} {p q : Pipeline} {a : PipelineAction} (hp : Following n p)
    (hl : Pipeline.Lossless n p a) (h : Pipeline.Step n p a q) : Following n q := by
  have hsound := step_sound hp.sound h
  cases h with
  | @produce next reset hlt =>
    have hset := settled_emit (n := n) (p := { p with produced := next :: p.produced })
      (u := previewUpdate p.produced.head? next reset) (hp.delivered 0)
    refine ⟨hsound, ?_, delivered_emit hp.delivered, ?_, fun i hi => ?_⟩
    · intro s hs
      rcases List.mem_cons.mp hs with rfl | hs
      · exact hl
      · exact hp.fits s hs
    · rw [hset 0, if_pos rfl]
      exact settled_produce hp hlt hl
    · rw [hset (i + 1), if_neg (by omega)]
      exact hp.links i hi
  | @deliver i u hi hu =>
    have hset := settled_deliver (p := p) hi hl
    refine ⟨hsound, hp.fits, delivered_arrive hp.delivered hl, ?_, fun j hj => ?_⟩
    · rw [hset 0]; exact hp.first
    · rw [hset (j + 1)]
      by_cases hij : j = i
      · subst hij
        simpa [Pipeline.setHop, Pipeline.arrive] using linked_receive u (hp.links j hj)
      · simpa [Pipeline.setHop, Pipeline.arrive, Function.update_of_ne hij] using hp.links j hj
  | @take i u c hi htake =>
    obtain ⟨s, _, _, _, hc⟩ := take_some htake
    have hset : ∀ j, ((p.setHop i c).emit (i + 1) u).settled n j =
        if j = i + 1 then (p.settled n (i + 1)).receive u else p.settled n j := by
      intro j
      have hbuf : c.buffer = (p.hops i).buffer := by rw [hc]
      rw [settled_emit (p := p.setHop i c) (hp.delivered (i + 1)), settled_setHop_same hbuf,
        settled_setHop_same hbuf]
    refine ⟨hsound, hp.fits, delivered_emit hp.delivered, ?_, fun j hj => ?_⟩
    · rw [hset 0, if_neg (by omega)]; exact hp.first
    · rw [hset (j + 1)]
      by_cases hij : j = i
      · subst hij
        simpa [Pipeline.setHop, Pipeline.emit] using
          linked_take (hp.sound.hops j) (hp.links j hj) htake
      · rw [if_neg (by omega)]
        simpa [Pipeline.setHop, Pipeline.emit, Function.update_of_ne hij] using hp.links j hj
  | @resync i =>
    have hset := settled_setHop_same (n := n) (p := p) (i := i) (c := (p.hops i).resync) rfl
    refine ⟨hsound, hp.fits, hp.delivered, ?_, fun j hj => ?_⟩
    · rw [hset 0]; exact hp.first
    · rw [hset (j + 1)]
      by_cases hij : j = i
      · subst hij
        simpa [Pipeline.setHop] using linked_resync (hp.links j hj)
      · simpa [Pipeline.setHop, Function.update_of_ne hij] using hp.links j hj
  | @replace i => exact hl.elim
  | @display u hu =>
    have hset := settled_display (n := n) (p := p) hl
    refine ⟨hsound, hp.fits, delivered_arrive (p := { p with viewer := p.viewer.receive u })
      hp.delivered hl, ?_, fun j hj => ?_⟩
    · rw [hset 0 (by omega)]; exact hp.first
    · rw [hset (j + 1) (by omega)]; exact hp.links j hj

theorem reach_following {n : Nat} {as : List PipelineAction} {p : Pipeline}
    (h : Reach ((pipeline n).guard (Pipeline.Lossless n)) as p) : Following n p := by
  refine Reach.invariant (Following n) ?_ ?_ h
  · intro s hs
    cases hs
    exact following_init n
  · intro s a t hs hst
    exact step_following hs hst.1 hst.2

theorem settled_of_drained {n i : Nat} {p : Pipeline} (h : p.delivered i = (p.wires i).length) :
    p.settled n i = p.reader n i := by
  simp [Pipeline.settled, Pipeline.inFlight, h]

theorem reader_newest {n : Nat} {p : Pipeline} {s : ToolPreviewState} (hp : Following n p)
    (hs : p.produced.head? = some s) (hw : ∀ i ≤ n, p.delivered i = (p.wires i).length)
    (hq : ∀ i < n, (p.hops i).pending = false) :
    ∀ i ≤ n, (p.reader n i).current = some s := by
  intro i
  induction i with
  | zero =>
    intro _
    rw [← settled_of_drained (hw 0 (Nat.zero_le n)), hp.first]
    cases hpr : p.produced with
    | nil => rw [hpr] at hs; cases hs
    | cons t rest => rw [hpr] at hs; exact hs
  | succ i ih =>
    intro hi
    have hcur := ih (by omega)
    simp only [Pipeline.reader, if_pos (show i < n by omega)] at hcur
    rw [← settled_of_drained (hw (i + 1) hi)]
    exact (hp.links i (by omega)).quiet s hcur (hq i (by omega))

/-- However updates are lost, repeated and reordered on the way through `n` channels, the viewer
holds nothing or the producer's state at the revision it reports, and the parser accepts whatever
a channel emits. Where nothing is lost, the viewer holds the last channel's state as soon as that
channel has sent it and the wire is drained, and the producer's newest one once all are. -/
theorem viewer_never_wrong (n : Nat) :
    (∀ as p, Reach (pipeline n) as p →
      (∀ s, p.viewer.current = some s → s ∈ p.produced ∧ s.revision = p.viewer.revision ∧
        ∀ t ∈ p.produced, t.revision = s.revision → t = s) ∧
      (∀ i, ∀ u ∈ p.wires (i + 1), parseToolPreviewUpdate u = .ok u)) ∧
    (∀ as p, Reach ((pipeline n).guard (Pipeline.Lossless n)) as p →
      (∀ i s, i + 1 = n → p.delivered n = (p.wires n).length → (p.hops i).pending = false →
        (p.hops i).current = some s → p.viewer.current = some s) ∧
      (∀ s, p.produced.head? = some s → (∀ i ≤ n, p.delivered i = (p.wires i).length) →
        (∀ i < n, (p.hops i).pending = false) → p.viewer.current = some s)) := by
  constructor
  · intro as p h
    have hp := reach_sound h
    refine ⟨fun s hs => ?_, hp.parses⟩
    obtain ⟨hm, hrev, _⟩ := hp.viewer s hs
    exact ⟨hm, hrev, fun t ht heq => hp.distinct t ht s hm heq⟩
  · intro as p h
    have hp := reach_following h
    have hview : p.reader n n = p.viewer := by simp [Pipeline.reader]
    constructor
    · intro i s hi hw hq hs
      have hl := (hp.links i (by omega)).quiet s hs hq
      rw [hi, settled_of_drained hw, hview] at hl
      exact hl
    · intro s hs hw hq
      have := reader_newest hp hs hw hq n (Nat.le_refl n)
      rwa [hview] at this

/-- One state sent through one channel to the viewer. -/
theorem viewer_never_wrong_one :
    ∃ as p, Reach ((pipeline 1).guard (Pipeline.Lossless 1)) as p ∧
      p.viewer.current = some ⟨1, [0x61], false⟩ ∧
      (⟨1, [0x61], false⟩ : ToolPreviewState) ∈ p.produced := by
  let s : ToolPreviewState := ⟨1, [0x61], false⟩
  let u : ToolPreviewUpdate := .reset 1 [0x61] false
  let c : ToolPreviewChannel := { buffer := ⟨1, some s⟩, sent := some s }
  let p₁ : Pipeline := { ({} : Pipeline) with produced := [s] }.emit 0 (previewUpdate none s false)
  let p₂ : Pipeline := (p₁.setHop 0 ((p₁.hops 0).receive u)).arrive 0
  let p₃ : Pipeline := (p₂.setHop 0 c).emit 1 u
  let p₄ : Pipeline := { p₃ with viewer := p₃.viewer.receive u }.arrive 1
  have s1 : Pipeline.Step 1 {} (.produce s false) p₁ := .produce (by intro x hx; cases hx)
  have s2 : Pipeline.Step 1 p₁ (.deliver 0 u) p₂ := .deliver (by decide) (List.mem_singleton.mpr rfl)
  have s3 : Pipeline.Step 1 p₂ (.take 0) p₃ := .take (by decide) rfl
  have s4 : Pipeline.Step 1 p₃ (.display u) p₄ := .display (List.mem_singleton.mpr rfl)
  have l1 : Pipeline.Lossless 1 {} (.produce s false) := ⟨by decide, by decide⟩
  have h0 : Reach ((pipeline 1).guard (Pipeline.Lossless 1)) [] {} := .init rfl
  have l2 : Pipeline.Lossless 1 p₁ (.deliver 0 u) := rfl
  have l3 : Pipeline.Lossless 1 p₂ (.take 0) := trivial
  have l4 : Pipeline.Lossless 1 p₃ (.display u) := rfl
  have h4 := (((h0.next ⟨l1, s1⟩).next ⟨l2, s2⟩).next ⟨l3, s3⟩).next ⟨l4, s4⟩
  have hview := ((viewer_never_wrong 1).2 _ _ h4).2 s rfl (by decide) (by decide)
  exact ⟨_, _, h4, hview, (((viewer_never_wrong 1).1 _ _ h4.of_guard).1 s hview).1⟩

/-! ## The producer -/

/-- `TOOL_PREVIEW_RESET_MS` -/
def toolPreviewResetMs : Int := 5000

/-- The part of `TerminalToolPreview` that `flush` reads and writes. -/
structure TerminalToolPreview where
  closed : Bool := false
  unavailable : Bool := false
  seen : Bool := false
  dirty : Bool := false
  previous : Option ToolPreviewState := none
  lastReset : Int := 0
  lastEmission : Int := 0

namespace TerminalToolPreview

def disable (t : TerminalToolPreview) : TerminalToolPreview :=
  { t with unavailable := true, dirty := true }

/-- `flush`, over the rendered text; `none` stands for a terminal that throws. -/
def flush (t : TerminalToolPreview) (now : Int) (rendered : Option JsString) :
    TerminalToolPreview × Option ToolPreviewUpdate :=
  if t.closed || !t.seen || now - t.lastEmission < 1000 then (t, none)
  else
    let reset := t.previous.isNone || toolPreviewResetMs ≤ now - t.lastReset
    if !t.dirty && !reset then (t, none)
    else
      let t₁ := if rendered.isSome then t else t.disable
      let text := rendered.getD ((t.previous.map ToolPreviewState.text).getD [])
      if text = [] && !t₁.unavailable && t.previous.isNone then (t₁, none)
      else
        let t₂ := { t₁ with dirty := false }
        if !reset && t.previous.map ToolPreviewState.text = some text &&
            t.previous.map ToolPreviewState.unavailable = some t₁.unavailable then (t₂, none)
        else
          let next : ToolPreviewState :=
            ⟨(t.previous.map ToolPreviewState.revision).getD 0 + 1, text, t₁.unavailable⟩
          let update := previewUpdate t.previous next reset
          ({ t₂ with previous := some next, lastEmission := now,
                     lastReset := if update.isReset then now else t.lastReset }, some update)

theorem flush_cases (t : TerminalToolPreview) (now : Int) (rendered : Option JsString) :
    ((t.flush now rendered).2 = none ∧ (t.flush now rendered).1.previous = t.previous) ∨
      ∃ next reset, (t.flush now rendered).2 = some (previewUpdate t.previous next reset) ∧
        (t.flush now rendered).1.previous = some next ∧
        next.revision = (t.previous.map ToolPreviewState.revision).getD 0 + 1 := by
  have hprev : (if rendered.isSome then t else t.disable).previous = t.previous := by
    split <;> rfl
  unfold flush
  generalize (if rendered.isSome then t else t.disable) = t₁ at hprev ⊢
  dsimp only
  split
  · left; exact ⟨rfl, rfl⟩
  · split
    · left; exact ⟨rfl, rfl⟩
    · split
      · left; exact ⟨rfl, hprev⟩
      · split
        · left; exact ⟨rfl, hprev⟩
        · right; exact ⟨_, _, rfl, rfl, rfl⟩

def Feeds (t : TerminalToolPreview) (p : Pipeline) : Prop :=
  p.produced.head? = t.previous ∧
    ∀ s ∈ p.produced, s.revision ≤ (t.previous.map ToolPreviewState.revision).getD 0

theorem flush_feeds {t : TerminalToolPreview} {p : Pipeline} (n : Nat) (now : Int)
    (rendered : Option JsString) (h : t.Feeds p) :
    ((t.flush now rendered).2 = none ∧ (t.flush now rendered).1.Feeds p) ∨
      ∃ next reset q, (t.flush now rendered).2 = some (previewUpdate t.previous next reset) ∧
        Pipeline.Step n p (.produce next reset) q ∧ (t.flush now rendered).1.Feeds q := by
  obtain ⟨hhead, hle⟩ := h
  rcases t.flush_cases now rendered with ⟨hnone, hsame⟩ | ⟨next, reset, hsome, hnext, hrev⟩
  · left
    exact ⟨hnone, by unfold Feeds; rw [hsame]; exact ⟨hhead, hle⟩⟩
  · right
    refine ⟨next, reset, _, hsome, .produce (fun s hs => ?_), ?_, fun s hs => ?_⟩
    · have := hle s hs; omega
    · rw [hnext]; rfl
    · rw [hnext]
      simp only [Option.map_some, Option.getD_some]
      rcases List.mem_cons.mp hs with hs | hs
      · exact Nat.le_of_eq (by rw [hs])
      · have := hle s hs; omega

/-- Runs of a terminal and of the pipeline that it sends into. Only `flush` touches what was sent. -/
inductive Runs (n : Nat) : TerminalToolPreview → Pipeline → Prop where
  | opened : Runs n {} {}
  | written {t t' : TerminalToolPreview} {p : Pipeline} :
      Runs n t p → t'.previous = t.previous → Runs n t' p
  | idle {t : TerminalToolPreview} {p : Pipeline} (now : Int) (rendered : Option JsString) :
      Runs n t p → (t.flush now rendered).2 = none → Runs n (t.flush now rendered).1 p
  | sent {t : TerminalToolPreview} {p : Pipeline} {u : ToolPreviewUpdate} (now : Int)
      (rendered : Option JsString) : Runs n t p → (t.flush now rendered).2 = some u →
      Runs n (t.flush now rendered).1
        ({ p with produced := (t.flush now rendered).1.previous.toList ++ p.produced }.emit 0 u)
  | carried {t : TerminalToolPreview} {p q : Pipeline} {a : PipelineAction} :
      Runs n t p → Pipeline.Step n p a q → q.produced = p.produced → Runs n t q

theorem Runs.sound {n : Nat} {t : TerminalToolPreview} {p : Pipeline} (h : Runs n t p) :
    Protocol.Sound n p ∧ t.Feeds p := by
  have hreach : (∃ as, Reach (pipeline n) as p) ∧ t.Feeds p := by
    induction h with
    | opened => exact ⟨⟨[], .init rfl⟩, rfl, by rintro _ ⟨⟩⟩
    | written _ hsame ih => exact ⟨ih.1, by unfold Feeds; rw [hsame]; exact ih.2⟩
    | idle now rendered _ hnone ih =>
      refine ⟨ih.1, (flush_feeds n now rendered ih.2).elim And.right ?_⟩
      rintro ⟨_, _, _, hsome, -⟩
      cases hnone.symm.trans hsome
    | sent now rendered _ hu ih =>
      obtain ⟨⟨as, hp⟩, hfeeds⟩ := ih
      obtain ⟨hnone, -⟩ | ⟨next, reset, q, hsome, hstep, hq⟩ := flush_feeds n now rendered hfeeds
      · cases hnone.symm.trans hu
      · cases hu.symm.trans hsome
        cases hstep with
        | produce hlt =>
          rw [← hq.1, ← hfeeds.1]
          exact ⟨⟨_, hp.next (.produce hlt)⟩, hq⟩
    | carried _ hstep hsame ih =>
      obtain ⟨⟨as, hp⟩, hfeeds⟩ := ih
      exact ⟨⟨_, hp.next hstep⟩, by unfold Feeds; rw [hsame]; exact hfeeds⟩
  obtain ⟨⟨as, hp⟩, hfeeds⟩ := hreach
  exact ⟨reach_sound hp, hfeeds⟩

end TerminalToolPreview

/-- The viewer of a terminal shows nothing, or a text as it was when the terminal was flushed. -/
theorem flushed_shown {n : Nat} {t : TerminalToolPreview} {p : Pipeline}
    (h : TerminalToolPreview.Runs n t p) :
    p.produced.head? = t.previous ∧ ∀ s, p.viewer.current = some s → s ∈ p.produced ∧
      s.revision = p.viewer.revision ∧ ∀ r ∈ p.produced, r.revision = s.revision → r = s := by
  obtain ⟨hsound, hfeeds⟩ := h.sound
  refine ⟨hfeeds.1, fun s hs => ?_⟩
  obtain ⟨hm, hrev, -⟩ := hsound.viewer s hs
  exact ⟨hm, hrev, fun r hr heq => hsound.distinct r hr s hm heq⟩

theorem flushed_shown_one : ∃ t p, TerminalToolPreview.Runs 0 t p ∧
    p.viewer.current = some ⟨1, [0x61], false⟩ ∧ p.produced.head? = t.previous := by
  have h0 : TerminalToolPreview.Runs 0 { seen := true, dirty := true } {} := .written .opened rfl
  have h1 := TerminalToolPreview.Runs.sent (u := .reset 1 [0x61] false) 1000 (some [0x61]) h0 rfl
  have h2 := h1.carried (.display (u := .reset 1 [0x61] false) (List.mem_singleton.mpr rfl)) rfl
  exact ⟨_, _, h2, rfl, (flushed_shown h2).1⟩

end Protocol
end PiCloud
