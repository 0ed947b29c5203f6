import PiCloud.Lib.History
import PiCloud.Durable.SessionHost

/-!
# Durable.SessionHostOwners

What holds of every owner of native storage, whatever the order of the calls.

* `Owner.Inv`: an owner closes with its last conversation or with the host, and a publication confirms
  what was acknowledged.
* `Host.Inv`: an owner that has a lease is the one under its key.
* `Host.Clean`: a step that does not go past a closed host, and whose callbacks return.
* `native_storage_owners`: what follows for every run of such steps.
-/

namespace PiCloud
namespace Durable

open Lib

namespace Owner

variable {closed : Bool} {owner : Owner}

def Held (owner : Owner) : Prop :=
  ∀ c, owner.closing = some c → c.stage = .runtime ∨ c.stage = .storage ∨ c.stage = .storageClose

def Confirmed (l : Link Publication) : Prop :=
  l.value.calls = (if l.value.acknowledged then l.value.confirmations.map (·.id) else []) ∧
    (l.status ≠ .settled → l.value.acknowledged = false)

structure Inv (closed : Bool) (owner : Owner) : Prop where
  /-- a closing began with the host, or with the release of the conversation that was left -/
  closing : owner.closing.isSome → closed = true ∨ ∃ l ∈ owner.releases.links,
    l.value.last = true ∧ ∀ c, owner.runs.get c ≠ none → c = l.value.conversationId
  empty : (∀ c, owner.runs.get c = none) → owner.closing.isSome
  pending : ∀ l ∈ owner.releases.links, l.status ≠ .settled →
    owner.runs.get l.value.conversationId = some .releasing
  distinct : ∀ (i j : Nat) (a b : Link Release), owner.releases.links[i]? = some a →
    owner.releases.links[j]? = some b → a.status ≠ .settled → b.status ≠ .settled →
    a.value.conversationId = b.value.conversationId → i = j
  /-- a release that leaves the owner open finds another conversation until it ends -/
  other : ∀ l ∈ owner.releases.links, l.status = .running → l.value.last = false →
    ∃ c, owner.runs.get c ≠ none ∧ c ≠ l.value.conversationId
  last : ∀ l ∈ owner.releases.links, l.value.last = true → owner.closing.isSome
  confirmed : ∀ l ∈ owner.publications.links, Confirmed l

theorem Inv.host_closed (h : owner.Inv closed) : owner.Inv true :=
  { h with closing := fun _ => .inl rfl }

theorem Inv.of_eq {owner' : Owner} (h : owner.Inv closed) (hruns : owner'.runs = owner.runs)
    (hclosing : owner'.closing = owner.closing) (hreleases : owner'.releases = owner.releases)
    (hpublications : owner'.publications = owner.publications) : owner'.Inv closed := by
  refine ⟨?_, ?_, ?_, ?_, ?_, ?_, ?_⟩
  · rw [hclosing, hreleases, hruns]
    exact h.closing
  · rw [hclosing, hruns]
    exact h.empty
  · rw [hreleases, hruns]
    exact h.pending
  · rw [hreleases]
    exact h.distinct
  · rw [hreleases, hruns]
    exact h.other
  · rw [hreleases, hclosing]
    exact h.last
  · rw [hpublications]
    exact h.confirmed

theorem Inv.setRun (h : owner.Inv closed) {c : Nat} (phase : RunPhase)
    (hc : owner.closing = none ∨ owner.runs.get c ≠ none)
    (hpending : ∀ l ∈ owner.releases.links, l.status ≠ .settled → l.value.conversationId ≠ c) :
    ({ owner with runs := owner.runs.set c phase }).Inv closed := by
  refine ⟨?_, ?_, ?_, h.distinct, ?_, h.last, h.confirmed⟩
  · intro hclosing
    obtain hclosed | ⟨l, hl, hlast, honly⟩ := h.closing hclosing
    · exact .inl hclosed
    · refine .inr ⟨l, hl, hlast, ?_⟩
      intro j hj
      simp only [InsertionMap.get_set] at hj
      split at hj
      · rename_i hjc
        obtain hnone | hsome := hc
        · rw [hnone] at hclosing
          cases hclosing
        · exact hjc ▸ honly c hsome
      · exact honly j hj
  · intro hempty
    have hset := hempty c
    simp only [InsertionMap.get_set_self] at hset
    cases hset
  · intro l hl hs
    have hne := hpending l hl hs
    simp only [InsertionMap.get_set, if_neg hne]
    exact h.pending l hl hs
  · intro l hl hrun hlast
    obtain ⟨j, hj, hne⟩ := h.other l hl hrun hlast
    refine ⟨j, ?_, hne⟩
    simp only [InsertionMap.get_set]
    split
    · rintro ⟨⟩
    · exact hj

theorem Inv.attach (h : owner.Inv closed) {c : Nat} (hclosing : owner.closing = none)
    (hc : owner.runs.get c = none) : (owner.attach c).Inv closed := by
  refine h.setRun .loading (.inl hclosing) ?_
  intro l hl hs heq
  have hpending := h.pending l hl hs
  rw [heq, hc] at hpending
  cases hpending

theorem Inv.release (h : owner.Inv closed) {c : Nat} {phase : RunPhase}
    (hc : owner.runs.get c = some phase) (hphase : phase ≠ .releasing) :
    (owner.release c).Inv closed := by
  have hfree : ∀ l ∈ owner.releases.links, l.status ≠ .settled → l.value.conversationId ≠ c := by
    intro l hl hs heq
    have hpending := h.pending l hl hs
    rw [heq, hc] at hpending
    cases hpending
    exact hphase rfl
  have hset := h.setRun .releasing (.inr (by rw [hc]; nofun)) hfree
  refine ⟨?_, hset.empty, ?_, ?_, ?_, ?_, h.confirmed⟩
  · intro hclosing
    obtain hclosed | ⟨l, hl, hlast⟩ := hset.closing hclosing
    · exact .inl hclosed
    · exact .inr ⟨l, List.mem_append_left _ hl, hlast⟩
  · intro l hl hs
    obtain hl | rfl := mem_snoc.mp hl
    · exact hset.pending l hl hs
    · exact InsertionMap.get_set_self ..
  · intro i j a b hi hj ha hb heq
    simp only [Owner.release, PromiseTail.links_push, List.getElem?_append] at hi hj
    split at hi <;> split at hj
    · exact h.distinct i j a b hi hj ha hb heq
    · obtain ⟨_, rfl⟩ := List.getElem?_eq_some_iff.mp hj
      simp only [List.getElem_singleton] at heq
      exact absurd heq (hfree a (List.mem_of_getElem? hi) ha)
    · obtain ⟨_, rfl⟩ := List.getElem?_eq_some_iff.mp hi
      simp only [List.getElem_singleton] at heq
      exact absurd heq.symm (hfree b (List.mem_of_getElem? hj) hb)
    · obtain ⟨hi, _⟩ := List.getElem?_eq_some_iff.mp hi
      obtain ⟨hj, _⟩ := List.getElem?_eq_some_iff.mp hj
      simp only [List.length_singleton] at hi hj
      omega
  · intro l hl hrun
    obtain hl | rfl := mem_snoc.mp hl
    · exact hset.other l hl hrun
    · cases hrun
  · intro l hl hlast
    obtain hl | rfl := mem_snoc.mp hl
    · exact h.last l hl hlast
    · cases hlast

theorem Inv.close (h : owner.Inv true) : owner.close.Inv true :=
  { h with closing := fun _ => .inl rfl, empty := fun _ => rfl, last := fun _ _ _ => rfl }

theorem Inv.begin (h : owner.Inv closed) {i : Nat} {l : Link Release}
    (hl : owner.releases.links[i]? = some l) (hwait : l.status = .waiting) {f : Release → Release}
    (hconv : ∀ r, (f r).conversationId = r.conversationId)
    (hlast : ∀ r, r.last = true → (f r).last = true) {closing' : Option Closing}
    (hkeep : owner.closing.isSome → closing'.isSome)
    (hnew : closing'.isSome → owner.closing.isSome ∨ (f l.value).last = true ∧
      owner.releases.free l.after = true ∧
      ∀ c, owner.runs.get c ≠ none → c = l.value.conversationId)
    (hclose : (f l.value).last = true → closing'.isSome)
    (hother : (f l.value).last = false →
      ∃ c, owner.runs.get c ≠ none ∧ c ≠ l.value.conversationId) :
    ({ owner with closing := closing', releases := owner.releases.start i f }).Inv closed := by
  refine ⟨?_, ?_, ?_, ?_, ?_, ?_, h.confirmed⟩
  · intro hclosing
    obtain hold | ⟨hlf, hfree, honly⟩ := hnew hclosing
    · obtain hclosed | ⟨q, hq, hqlast, honly⟩ := h.closing hold
      · exact .inl hclosed
      · obtain ⟨j, hj⟩ := List.mem_iff_getElem?.mp hq
        obtain ⟨q', hq', hor⟩ : ∃ q', (owner.releases.start i f).links[j]? = some q' ∧
            (q' = q ∨ q' = { q with value := f q.value, status := .running }) :=
          PromiseTail.exists_moved i (by rintro ⟨⟩) f hj
        refine .inr ⟨q', List.mem_of_getElem? hq', ?_⟩
        obtain rfl | rfl := hor
        · exact ⟨hqlast, honly⟩
        · exact ⟨hlast _ hqlast, fun c hc => (honly c hc).trans (hconv _).symm⟩
    · have hstart : (owner.releases.start i f).links[i]?
          = some { l with value := f l.value, status := .running } := by
        unfold PromiseTail.start
        rw [PromiseTail.getElem?_move, hl, Option.map_some, if_pos ⟨rfl, hwait, hfree⟩]
      exact .inr ⟨_, List.mem_of_getElem? hstart, hlf, fun c hc =>
        (honly c hc).trans (hconv _).symm⟩
  · exact fun hempty => hkeep (h.empty hempty)
  · intro q hq hs
    obtain ⟨j, hj⟩ := List.mem_iff_getElem?.mp hq
    obtain hold | ⟨_, p, hp, hpw, rfl⟩ := PromiseTail.started hj
    · exact h.pending q (List.mem_of_getElem? hold) hs
    · rw [hconv]
      exact h.pending p (List.mem_of_getElem? hp) (by rw [hpw]; rintro ⟨⟩)
  · have hback : ∀ (j : Nat) (q : Link Release), (owner.releases.start i f).links[j]? = some q → q.status ≠ .settled →
        ∃ p, owner.releases.links[j]? = some p ∧ p.status ≠ .settled ∧
          p.value.conversationId = q.value.conversationId := by
      intro j q hj hs
      obtain hold | ⟨rfl, p, hp, hpw, rfl⟩ := PromiseTail.started hj
      · exact ⟨q, hold, hs, rfl⟩
      · exact ⟨p, hp, by rw [hpw]; rintro ⟨⟩, (hconv _).symm⟩
    intro j k a b hj hk ha hb heq
    obtain ⟨p, hp, hps, hpc⟩ := hback j a hj ha
    obtain ⟨q, hq, hqs, hqc⟩ := hback k b hk hb
    exact h.distinct j k p q hp hq hps hqs ((hpc.trans heq).trans hqc.symm)
  · intro q hq hrun hqlast
    obtain ⟨j, hj⟩ := List.mem_iff_getElem?.mp hq
    obtain hold | ⟨_, p, hp, hpw, rfl⟩ := PromiseTail.started hj
    · exact h.other q (List.mem_of_getElem? hold) hrun hqlast
    · rw [hl] at hp
      cases hp
      rw [hconv]
      exact hother hqlast
  · intro q hq hqlast
    obtain ⟨j, hj⟩ := List.mem_iff_getElem?.mp hq
    obtain hold | ⟨_, p, hp, hpw, rfl⟩ := PromiseTail.started hj
    · exact hkeep (h.last q (List.mem_of_getElem? hold) hqlast)
    · rw [hl] at hp
      cases hp
      exact hclose hqlast

theorem Inv.startRelease (h : owner.Inv closed) (i : Nat) : (owner.startRelease i).Inv closed := by
  unfold Owner.startRelease
  split
  · exact h
  · rename_i l hl
    split
    · rename_i hready
      obtain ⟨hwait, hfree⟩ := hready
      have hpending := h.pending l (List.mem_of_getElem? hl) (by rw [hwait]; rintro ⟨⟩)
      split
      · rename_i hsize
        have honly : ∀ c, owner.runs.get c ≠ none → c = l.value.conversationId := fun c hc =>
          InsertionMap.only_of_size hsize hpending hc
        let f : Release → Release := fun r => { r with stage := .closing, last := true }
        exact h.begin hl hwait (f := f) (fun _ => rfl) (fun _ _ => rfl) (fun _ => rfl)
          (fun _ => .inr ⟨rfl, hfree, honly⟩) (fun _ => rfl) (by rintro ⟨⟩)
      · rename_i hsize
        let f : Release → Release := fun r =>
          { r with stage := .publications owner.publications.tail }
        have hother := InsertionMap.other_of_size hsize hpending
        exact h.begin hl hwait (f := f) (fun _ => rfl) (fun _ hr => hr) (fun hc => hc)
          (fun hc => .inl hc) (fun hlast => h.last l (List.mem_of_getElem? hl) hlast)
          fun _ => hother
    · exact h

theorem Inv.edit (h : owner.Inv closed) (i : Nat) {f : Release → Release}
    (hconv : ∀ r, (f r).conversationId = r.conversationId) (hlast : ∀ r, (f r).last = r.last) :
    ({ owner with releases := owner.releases.edit i f }).Inv closed := by
  have hback : ∀ (j : Nat) (q : Link Release), (owner.releases.edit i f).links[j]? = some q →
      ∃ p, owner.releases.links[j]? = some p ∧ p.status = q.status ∧
        q.value.conversationId = p.value.conversationId ∧ q.value.last = p.value.last := by
    intro j q hj
    obtain hold | ⟨rfl, p, hp, hpr, rfl⟩ := PromiseTail.edited hj
    · exact ⟨q, hold, rfl, rfl, rfl⟩
    · exact ⟨p, hp, hpr, hconv _, hlast _⟩
  have hmem : ∀ q ∈ (owner.releases.edit i f).links, ∃ p ∈ owner.releases.links,
      p.status = q.status ∧ q.value.conversationId = p.value.conversationId ∧
        q.value.last = p.value.last := by
    intro q hq
    obtain ⟨j, hj⟩ := List.mem_iff_getElem?.mp hq
    obtain ⟨p, hp, hrest⟩ := hback j q hj
    exact ⟨p, List.mem_of_getElem? hp, hrest⟩
  refine ⟨?_, h.empty, ?_, ?_, ?_, ?_, h.confirmed⟩
  · intro hclosing
    obtain hclosed | ⟨q, hq, hqlast, honly⟩ := h.closing hclosing
    · exact .inl hclosed
    · obtain ⟨j, hj⟩ := List.mem_iff_getElem?.mp hq
      obtain ⟨q', hq', hor⟩ : ∃ q', (owner.releases.edit i f).links[j]? = some q' ∧
          (q' = q ∨ q' = { q with value := f q.value, status := .running }) :=
        PromiseTail.exists_moved i (by rintro ⟨⟩) f hj
      refine .inr ⟨q', List.mem_of_getElem? hq', ?_⟩
      obtain rfl | rfl := hor
      · exact ⟨hqlast, honly⟩
      · exact ⟨(hlast _).trans hqlast, fun c hc => (honly c hc).trans (hconv _).symm⟩
  · intro q hq hs
    obtain ⟨p, hp, hps, hpc, _⟩ := hmem q hq
    rw [hpc]
    exact h.pending p hp (hps ▸ hs)
  · intro j k a b hj hk ha hb heq
    obtain ⟨p, hp, hps, hpc, _⟩ := hback j a hj
    obtain ⟨q, hq, hqs, hqc, _⟩ := hback k b hk
    exact h.distinct j k p q hp hq (hps ▸ ha) (hqs ▸ hb) ((hpc.symm.trans heq).trans hqc)
  · intro q hq hrun hqlast
    obtain ⟨p, hp, hps, hpc, hpl⟩ := hmem q hq
    rw [hpc]
    exact h.other p hp (hps.trans hrun) (hpl.symm.trans hqlast)
  · intro q hq hqlast
    obtain ⟨p, hp, _, _, hpl⟩ := hmem q hq
    exact h.last p hp (hpl.symm.trans hqlast)

theorem Inv.finishRelease (h : owner.Inv closed) {i : Nat} {l : Link Release}
    (hl : owner.releases.links[i]? = some l) (hrun : l.status = .running) :
    (owner.finishRelease i l.value.conversationId).Inv closed := by
  have hin : l ∈ owner.releases.links := List.mem_of_getElem? hl
  have hback : ∀ (j : Nat) (q : Link Release), (owner.releases.settle i id).links[j]? = some q →
      ∃ p, owner.releases.links[j]? = some p ∧ q.value = p.value ∧
        (q.status ≠ .settled → p = q ∧ j ≠ i) := by
    intro j q hj
    obtain ⟨hold, hnot⟩ | ⟨rfl, p, hp, _, rfl⟩ := PromiseTail.settled hj
    · refine ⟨q, hold, rfl, fun _ => ⟨rfl, fun hji => ?_⟩⟩
      have hq : some l = some q := by rw [← hl, ← hji, hold]
      cases hq
      exact hnot hji hrun
    · exact ⟨p, hp, rfl, fun hs => absurd rfl hs⟩
  have hne : ∀ (j : Nat) (q : Link Release), owner.releases.links[j]? = some q →
      q.status ≠ .settled → j ≠ i → q.value.conversationId ≠ l.value.conversationId :=
    fun j q hq hs hji heq => hji (h.distinct j i q l hq hl hs (by rw [hrun]; rintro ⟨⟩) heq)
  have hruns : ∀ c, (owner.finishRelease i l.value.conversationId).runs.get c
      = if c = l.value.conversationId then none else owner.runs.get c :=
    fun c => InsertionMap.get_delete ..
  have hleft : ∀ c, (owner.finishRelease i l.value.conversationId).runs.get c ≠ none →
      owner.runs.get c ≠ none := by
    intro c hc
    rw [hruns] at hc
    split at hc
    · exact absurd rfl hc
    · exact hc
  refine ⟨?_, ?_, ?_, ?_, ?_, ?_, h.confirmed⟩
  · intro hclosing
    obtain hclosed | ⟨q, hq, hqlast, honly⟩ := h.closing hclosing
    · exact .inl hclosed
    · obtain ⟨j, hj⟩ := List.mem_iff_getElem?.mp hq
      obtain ⟨q', hq', hor⟩ : ∃ q', (owner.releases.settle i id).links[j]? = some q' ∧
          (q' = q ∨ q' = { q with value := id q.value, status := .settled }) :=
        PromiseTail.exists_moved i (by rintro ⟨⟩) id hj
      refine .inr ⟨q', List.mem_of_getElem? hq', ?_⟩
      obtain rfl | rfl := hor
      · exact ⟨hqlast, fun c hc => honly c (hleft c hc)⟩
      · exact ⟨hqlast, fun c hc => honly c (hleft c hc)⟩
  · intro hempty
    cases hlast : l.value.last with
    | true => exact h.last l hin hlast
    | false =>
      obtain ⟨c, hc, hcl⟩ := h.other l hin hrun hlast
      have hnone := hempty c
      rw [hruns, if_neg hcl] at hnone
      exact absurd hnone hc
  · intro q hq hs
    obtain ⟨j, hj⟩ := List.mem_iff_getElem?.mp hq
    obtain ⟨p, hp, _, hsame⟩ := hback j q hj
    obtain ⟨rfl, hji⟩ := hsame hs
    rw [hruns, if_neg (hne j p hp hs hji)]
    exact h.pending p (List.mem_of_getElem? hp) hs
  · intro j k a b hj hk ha hb heq
    obtain ⟨p, hp, _, hpa⟩ := hback j a hj
    obtain ⟨q, hq, _, hqb⟩ := hback k b hk
    obtain ⟨rfl, _⟩ := hpa ha
    obtain ⟨rfl, _⟩ := hqb hb
    exact h.distinct j k p q hp hq ha hb heq
  · intro q hq hqrun
    obtain ⟨j, hj⟩ := List.mem_iff_getElem?.mp hq
    obtain ⟨p, hp, _, hsame⟩ := hback j q hj
    obtain ⟨rfl, hji⟩ := hsame (by rw [hqrun]; rintro ⟨⟩)
    exact absurd (owner.releases.running_unique hp hl hqrun hrun) hji
  · intro q hq hqlast
    obtain ⟨j, hj⟩ := List.mem_iff_getElem?.mp hq
    obtain ⟨p, hp, hvalue, _⟩ := hback j q hj
    exact h.last p (List.mem_of_getElem? hp) (hvalue ▸ hqlast)

theorem Inv.continueRelease (h : owner.Inv closed) (i : Nat) :
    (owner.continueRelease i).Inv closed := by
  unfold Owner.continueRelease
  split
  · exact h
  · rename_i l hl
    split
    · rename_i hrun
      split
      · split
        · exact h.finishRelease hl hrun
        · exact h.edit i (fun _ => rfl) fun _ => rfl
        · exact h
      · split
        · exact h.finishRelease hl hrun
        · exact h
    · exact h

theorem Inv.setPublications (h : owner.Inv closed) {publications : PromiseTail Publication}
    (hp : ∀ l ∈ publications.links, Confirmed l) (interrupted : Bool) :
    ({ owner with publications, interrupted }).Inv closed :=
  { h with confirmed := hp }

theorem Inv.push (h : owner.Inv closed) (publisher : Option Nat)
    (confirmations : List Confirmation) :
    ({ owner with
      publications := owner.publications.push { publisher, confirmations } }).Inv closed := by
  refine h.setPublications ?_ owner.interrupted
  intro l hl
  obtain hl | rfl := mem_snoc.mp hl
  · exact h.confirmed l hl
  · exact ⟨rfl, fun _ => rfl⟩

theorem Inv.startWork (h : owner.Inv closed) (i : Nat) :
    ({ owner with publications := owner.publications.start i id }).Inv closed := by
  refine h.setPublications ?_ owner.interrupted
  intro l hl
  obtain ⟨j, hj⟩ := List.mem_iff_getElem?.mp hl
  obtain hold | ⟨_, q, hq, hw, rfl⟩ := PromiseTail.started hj
  · exact h.confirmed l (List.mem_of_getElem? hold)
  · obtain ⟨hcalls, hack⟩ := h.confirmed q (List.mem_of_getElem? hq)
    exact ⟨hcalls, fun _ => hack (by rw [hw]; rintro ⟨⟩)⟩

theorem confirm_all {cs : List Confirmation} (h : ∀ c ∈ cs.dropLast, c.throws = false) :
    confirm cs = cs.map (·.id) := by
  induction cs with
  | nil => rfl
  | cons c cs ih =>
    cases cs with
    | nil => simp [confirm]
    | cons d cs =>
      have hc : c.throws = false := h c (by simp)
      rw [confirm, hc, if_neg (by simp), List.map_cons]
      exact congrArg _ (ih fun e he => h e (by simp [he]))

theorem Inv.settleWork (h : owner.Inv closed) (i : Nat) (outcome : PublishOutcome)
    (hreturn : outcome = .acknowledged → ∀ l, owner.publications.links[i]? = some l →
      ∀ c ∈ l.value.confirmations.dropLast, c.throws = false) :
    (owner.settleWork i outcome).Inv closed := by
  have hsame : ∀ l ∈ (owner.publications.settle i id).links, Confirmed l := by
    intro l hl
    obtain ⟨j, hj⟩ := List.mem_iff_getElem?.mp hl
    obtain ⟨hold, _⟩ | ⟨_, q, hq, _, rfl⟩ := PromiseTail.settled hj
    · exact h.confirmed l (List.mem_of_getElem? hold)
    · exact ⟨(h.confirmed q (List.mem_of_getElem? hq)).1, fun hs => absurd rfl hs⟩
  cases outcome with
  | acknowledged =>
    refine h.setPublications ?_ _
    intro l hl
    obtain ⟨j, hj⟩ := List.mem_iff_getElem?.mp hl
    obtain ⟨hold, _⟩ | ⟨_, q, hq, hrun, rfl⟩ := PromiseTail.settled hj
    · exact h.confirmed l (List.mem_of_getElem? hold)
    · obtain ⟨hcalls, hack⟩ := h.confirmed q (List.mem_of_getElem? hq)
      rw [hack (by rw [hrun]; rintro ⟨⟩), if_neg (by simp)] at hcalls
      refine ⟨?_, fun hs => absurd rfl hs⟩
      simp only [hcalls, List.nil_append]
      exact confirm_all (hreturn rfl q hq)
  | notSent => exact h.setPublications hsame _
  | failed => exact h.setPublications hsame _

def Settled (owner : Owner) : Prop := ∃ c, owner.closing = some c ∧ c.stage = .settled

/-- What a step of an owner leaves as it was. -/
structure Kept (owner owner' : Owner) : Prop where
  key : owner'.key = owner.key
  held : owner'.Held ↔ owner.Held
  settled : owner'.Settled → owner.Settled
  closing : owner.closing.isSome → owner'.closing.isSome
  storage : owner'.storage = owner.storage ∨ owner.storage = .opening

theorem Kept.of_closing {owner owner' : Owner} (hkey : owner'.key = owner.key)
    (hclosing : owner'.closing = owner.closing ∨ owner'.closing = owner.close.closing)
    (hstorage : owner'.storage = owner.storage ∨ owner.storage = .opening) : owner.Kept owner' := by
  have hcases : owner'.closing = owner.closing ∨
      owner.closing = none ∧ owner'.closing = some {} := by
    obtain heq | hclose := hclosing
    · exact .inl heq
    · cases hc : owner.closing with
      | none =>
        refine .inr ⟨rfl, ?_⟩
        rw [hclose]
        unfold Owner.close
        rw [hc]
        rfl
      | some c =>
        refine .inl ?_
        rw [hclose]
        unfold Owner.close
        rw [hc]
        rfl
  obtain heq | ⟨hnone, hsome⟩ := hcases
  · refine ⟨hkey, ?_, ?_, ?_, hstorage⟩
    · unfold Held
      rw [heq]
    · unfold Settled
      rw [heq]
      exact fun h => h
    · rw [heq]
      exact fun h => h
  · refine ⟨hkey, ⟨fun _ c hc => ?_, fun _ c hc => ?_⟩, ?_, ?_, hstorage⟩
    · rw [hnone] at hc
      cases hc
    · rw [hsome] at hc
      cases hc
      exact .inl rfl
    · rintro ⟨c, hc, hs⟩
      rw [hsome] at hc
      cases hc
      cases hs
    · rw [hsome]
      exact fun _ => rfl

theorem Inv.setClosing (h : owner.Inv closed) (hc : owner.closing.isSome) (c : Closing)
    (storage : StorageStatus) : ({ owner with closing := some c, storage }).Inv closed :=
  { h with closing := fun _ => h.closing hc, empty := fun _ => rfl, last := fun _ _ _ => rfl }

theorem Inv.new (key : LeaseKey) (c : Nat) : (Owner.attach { key } c).Inv closed where
  closing h := by cases h
  empty h := by
    have hc := h c
    simp only [Owner.attach, InsertionMap.get_set_self] at hc
    cases hc
  pending _ h := by cases h
  distinct _ _ _ _ h := by cases h
  other _ h := by cases h
  last _ h := by cases h
  confirmed _ h := by cases h

end Owner

namespace Host

variable {h : Host} {o : Nat}

structure Inv (h : Host) : Prop where
  owner : ∀ o < h.fresh, (h.heap o).Inv h.closed
  found : ∀ k o, h.owners.get k = some o → o < h.fresh ∧ (h.heap o).key = k ∧
    ¬ (h.heap o).Settled
  leased : ∀ k o, h.leases.get k = some o → o < h.fresh ∧ (h.heap o).key = k ∧ (h.heap o).Held
  /-- an owner that has its lease is found under its key -/
  held : ∀ o < h.fresh, (h.heap o).Held → h.owners.get (h.heap o).key = some o ∧
    (h.leasesClosed = false → h.leases.get (h.heap o).key = some o)
  storage : ∀ o < h.fresh, ¬ (h.heap o).Held →
    (h.heap o).storage = .failed ∨ (h.heap o).storage = .closed
  retired : h.closed = true → ∀ o < h.fresh, (h.heap o).closing.isSome
  closes : ∀ c ∈ h.closes, h.closed = true ∧ (∀ k o, h.owners.get k = some o → o ∈ c.owners) ∧
    (c.done = true → ∀ k, h.owners.get k = none)
  anchored : ∀ p < h.fresh, ∀ l ∈ (h.heap p).publications.links, ∀ o,
    l.value.publisher = some o → o = p

theorem Inv.empty : ({} : Host).Inv where
  owner _ h := absurd h (Nat.not_lt_zero _)
  found _ _ h := by cases h
  leased _ _ h := by cases h
  held _ h := absurd h (Nat.not_lt_zero _)
  storage _ h := absurd h (Nat.not_lt_zero _)
  retired h := by cases h
  closes := nofun
  anchored _ h := absurd h (Nat.not_lt_zero _)

theorem setOwner_self (h : Host) (o : Nat) (owner : Owner) : (h.setOwner o owner).heap o = owner :=
  Function.update_self ..

theorem setOwner_ne (h : Host) {o p : Nat} (owner : Owner) (hp : p ≠ o) :
    (h.setOwner o owner).heap p = h.heap p :=
  Function.update_of_ne hp ..

theorem setOwner_cases (h : Host) (o : Nat) (owner : Owner) (p : Nat) :
    p = o ∧ (h.setOwner o owner).heap p = owner ∨
      p ≠ o ∧ (h.setOwner o owner).heap p = h.heap p := by
  by_cases hp : p = o
  · exact .inl ⟨hp, by rw [hp]; exact setOwner_self ..⟩
  · exact .inr ⟨hp, setOwner_ne _ _ hp⟩

theorem Inv.setOwner (hi : h.Inv) (ho : o < h.fresh) {owner : Owner}
    (hk : (h.heap o).Kept owner) (hinv : owner.Inv h.closed)
    (hanchored : ∀ l ∈ owner.publications.links, ∀ p, l.value.publisher = some p → p = o) :
    (h.setOwner o owner).Inv := by
  have hcell := setOwner_cases h o owner
  refine ⟨?_, ?_, ?_, ?_, ?_, ?_, hi.closes, ?_⟩
  · intro p hp
    obtain ⟨rfl, hself⟩ | ⟨_, hother⟩ := hcell p
    · rw [hself]
      exact hinv
    · rw [hother]
      exact hi.owner p hp
  · intro k p hget
    obtain ⟨hp, hkey, hstage⟩ := hi.found k p hget
    refine ⟨hp, ?_⟩
    obtain ⟨rfl, hself⟩ | ⟨_, hother⟩ := hcell p
    · rw [hself]
      exact ⟨hk.key.trans hkey, fun hs => hstage (hk.settled hs)⟩
    · rw [hother]
      exact ⟨hkey, hstage⟩
  · intro k p hget
    obtain ⟨hp, hkey, hheld⟩ := hi.leased k p hget
    refine ⟨hp, ?_⟩
    obtain ⟨rfl, hself⟩ | ⟨_, hother⟩ := hcell p
    · rw [hself]
      exact ⟨hk.key.trans hkey, hk.held.mpr hheld⟩
    · rw [hother]
      exact ⟨hkey, hheld⟩
  · intro p hp hheld
    obtain ⟨rfl, hself⟩ | ⟨_, hother⟩ := hcell p
    · rw [hself] at hheld ⊢
      rw [hk.key]
      exact hi.held p hp (hk.held.mp hheld)
    · rw [hother] at hheld ⊢
      exact hi.held p hp hheld
  · intro p hp hheld
    obtain ⟨rfl, hself⟩ | ⟨_, hother⟩ := hcell p
    · rw [hself] at hheld ⊢
      have hold := hi.storage p hp fun hh => hheld (hk.held.mpr hh)
      obtain heq | hopening := hk.storage
      · rw [heq]
        exact hold
      · rw [hopening] at hold
        obtain hold | hold := hold <;> cases hold
    · rw [hother] at hheld ⊢
      exact hi.storage p hp hheld
  · intro hclosed p hp
    have hold := hi.retired hclosed p hp
    obtain ⟨rfl, hself⟩ | ⟨_, hother⟩ := hcell p
    · rw [hself]
      exact hk.closing hold
    · rw [hother]
      exact hold
  · intro p hp
    obtain ⟨rfl, hself⟩ | ⟨_, hother⟩ := hcell p
    · rw [hself]
      exact hanchored
    · rw [hother]
      exact hi.anchored p hp

theorem Inv.on (hi : h.Inv) {f : Owner → Owner}
    (hk : ∀ owner : Owner, owner.Kept (f owner))
    (hinv : ∀ owner, owner.Inv h.closed → (f owner).Inv h.closed)
    (hpublications : ∀ owner, ∀ l ∈ (f owner).publications.links,
      l.value.publisher = none ∨ ∃ q ∈ owner.publications.links,
        l.value.publisher = q.value.publisher) : (h.on o f).Inv := by
  unfold Host.on
  split
  · rename_i ho
    refine hi.setOwner ho (hk _) (hinv _ (hi.owner o ho)) ?_
    intro l hl p hp
    obtain hnone | ⟨q, hq, heq⟩ := hpublications _ l hl
    · rw [hnone] at hp
      cases hp
    · exact hi.anchored o ho q hq p (heq ▸ hp)
  · exact hi

theorem Inv.create (hi : h.Inv) (hclosed : h.closed = false) (key : LeaseKey) (c : Nat) :
    (h.create key c).Inv := by
  unfold Host.create
  split
  · exact hi
  · rename_i hadmit
    rw [not_or, Bool.not_eq_true, Option.not_isSome_iff_eq_none] at hadmit
    obtain ⟨hopen, hfree⟩ := hadmit
    have hnew : (Owner.attach { key } c).Inv h.closed := Owner.Inv.new key c
    have hkey : (Owner.attach { key } c).key = key := rfl
    have hclosing : (Owner.attach { key } c).closing = none := rfl
    have hlinks : (Owner.attach { key } c).publications.links = [] := rfl
    generalize Owner.attach { key } c = owner at hnew hkey hclosing hlinks
    have hself : (h.setOwner h.fresh owner).heap h.fresh = owner := setOwner_self ..
    have hold : ∀ p < h.fresh, (h.setOwner h.fresh owner).heap p = h.heap p := fun p hp =>
      setOwner_ne h owner (Nat.ne_of_lt hp)
    have hheld : owner.Held := by
      intro q hq
      rw [hclosing] at hq
      cases hq
    have hcases : ∀ p, p < h.fresh + 1 → p < h.fresh ∨ p = h.fresh := fun p hp =>
      Nat.lt_or_eq_of_le (Nat.le_of_lt_succ hp)
    refine ⟨?_, ?_, ?_, ?_, ?_, ?_, ?_, ?_⟩
    · intro p hp
      obtain hp | rfl := hcases p hp
      · simp only [hold p hp]
        exact hi.owner p hp
      · simp only [hself]
        exact hnew
    · intro k p hget
      simp only [InsertionMap.get_set] at hget
      split at hget
      · rename_i hk
        cases hget
        refine ⟨Nat.lt_succ_self _, ?_⟩
        simp only [hself]
        refine ⟨hkey.trans hk.symm, ?_⟩
        rintro ⟨q, hq, _⟩
        rw [hclosing] at hq
        cases hq
      · obtain ⟨hp, hrest⟩ := hi.found k p hget
        refine ⟨Nat.lt_succ_of_lt hp, ?_⟩
        simp only [hold p hp]
        exact hrest
    · intro k p hget
      simp only [InsertionMap.get_set] at hget
      split at hget
      · rename_i hk
        cases hget
        refine ⟨Nat.lt_succ_self _, ?_⟩
        simp only [hself]
        exact ⟨hkey.trans hk.symm, hheld⟩
      · obtain ⟨hp, hrest⟩ := hi.leased k p hget
        refine ⟨Nat.lt_succ_of_lt hp, ?_⟩
        simp only [hold p hp]
        exact hrest
    · intro p hp
      obtain hp | rfl := hcases p hp
      · simp only [hold p hp]
        intro hph
        obtain ⟨hget, hlease⟩ := hi.held p hp hph
        have hne : (h.heap p).key ≠ key := by
          intro heq
          have hleased := hlease hopen
          rw [heq, hfree] at hleased
          cases hleased
        rw [InsertionMap.get_set_ne _ _ hne, InsertionMap.get_set_ne _ _ hne]
        exact ⟨hget, hlease⟩
      · simp only [hself, hkey]
        intro _
        exact ⟨InsertionMap.get_set_self .., fun _ => InsertionMap.get_set_self ..⟩
    · intro p hp
      obtain hp | rfl := hcases p hp
      · simp only [hold p hp]
        exact hi.storage p hp
      · simp only [hself]
        exact fun hnot => absurd hheld hnot
    · intro hyes
      have hyes' : h.closed = true := hyes
      rw [hclosed] at hyes'
      cases hyes'
    · intro q hq
      obtain ⟨hyes, _⟩ := hi.closes q hq
      rw [hclosed] at hyes
      cases hyes
    · intro p hp
      obtain hp | rfl := hcases p hp
      · simp only [hold p hp]
        exact hi.anchored p hp
      · simp only [hself, hlinks]
        simp

theorem Inv.wait (hi : h.Inv) (waiting : List WaitingOpen) : ({ h with waiting }).Inv :=
  { hi with }

theorem Inv.openSession (hi : h.Inv) (b : DurableRunBinding) : (h.openSession b).Inv := by
  unfold Host.openSession
  split
  · exact hi
  · rename_i hclosed
    split
    · exact hi
    · split
      · exact hi.create (Bool.not_eq_true _ ▸ hclosed) _ _
      · rename_i o hget
        obtain ⟨ho, _, _⟩ := hi.found _ o hget
        split
        · exact hi.wait _
        · rename_i hclosing
          split
          · exact hi
          · rename_i hattached
            rw [Option.not_isSome_iff_eq_none] at hattached
            exact hi.setOwner ho (.of_closing rfl (.inl rfl) (.inl rfl))
              ((hi.owner o ho).attach hclosing hattached) (hi.anchored o ho)

/-! ### A step that goes wrong -/

/-- No `open` begins anew once the host was closed, while the observer still admits its lease, and no
`confirmed` callback throws before the last one. -/
def clean (h : Host) : HostAction → Bool
  | .resumeOpen i =>
    h.waiting[i]?.all fun w => !h.closed || h.leasesClosed || (h.leases.get w.key).isSome ||
      (h.heap w.owner).closing.any (·.failed)
  | .settleWork o i outcome =>
    outcome ≠ .acknowledged || (h.heap o).publications.links[i]?.all fun l =>
      l.value.confirmations.dropLast.all fun c => !c.throws
  | _ => true

def cleanRun : Host → List HostAction → Bool
  | _, [] => true
  | h, a :: actions => clean h a && cleanRun (h.act a) actions

theorem Inv.resumeOpen (hi : h.Inv) {i : Nat} (hclean : h.clean (.resumeOpen i) = true) :
    (h.resumeOpen i).Inv := by
  unfold Host.resumeOpen
  split
  · exact hi
  · rename_i w hw
    split
    · exact hi.wait _
    · rename_i hclosing
      simp only [clean, hw, Option.all_some, hclosing, Option.any_some, Bool.or_false,
        Bool.or_eq_true, Bool.not_eq_true'] at hclean
      obtain (hopen | hleases) | hleased := hclean
      · exact (hi.create hopen _ _).wait _
      · unfold Host.create
        rw [if_pos (.inl hleases)]
        exact hi.wait _
      · unfold Host.create
        rw [if_pos (.inr hleased)]
        exact hi.wait _
    · exact hi

theorem Inv.proceed (hi : h.Inv) (ho : o < h.fresh) {c c' : Closing}
    (hc : (h.heap o).closing = some c) (hstage : c.stage = .runtime ∨ c.stage = .storage)
    (hstage' : c'.stage = .storage ∨ c'.stage = .storageClose) :
    (h.setOwner o { h.heap o with closing := some c' }).Inv := by
  have hsome : (h.heap o).closing.isSome := by rw [hc]; rfl
  refine hi.setOwner ho ⟨rfl, ⟨fun _ q hq => ?_, fun _ q hq => ?_⟩, ?_, fun _ => rfl, .inl rfl⟩
    ((hi.owner o ho).setClosing hsome c' _) (hi.anchored o ho)
  · rw [hc] at hq
    cases hq
    obtain hs | hs := hstage
    · exact .inl hs
    · exact .inr (.inl hs)
  · cases hq
    exact .inr hstage'
  · rintro ⟨q, hq, hs⟩
    cases hq
    rw [hs] at hstage'
    obtain hs' | hs' := hstage' <;> cases hs'

theorem Inv.closeAuthority (hi : h.Inv) (ho : o < h.fresh) {storage : StorageStatus}
    (hsome : (h.heap o).closing.isSome) (hstorage : storage = .failed ∨ storage = .closed)
    (failed : Bool) : (h.closeAuthority o { h.heap o with storage } failed).Inv := by
  have hcell := setOwner_cases h o
    { h.heap o with closing := some { stage := .authority, failed }, storage }
  have hleases : ∀ k p, (h.closeAuthority o { h.heap o with storage } failed).leases.get k = some p →
      h.leases.get k = some p ∧ p ≠ o := by
    intro k p hget
    simp only [Host.closeAuthority] at hget
    split at hget
    · rename_i hleased
      obtain ⟨hk, hold⟩ := InsertionMap.get_delete_iff.mp hget
      refine ⟨hold, ?_⟩
      rintro rfl
      exact hk (hi.leased k p hold).2.1.symm
    · rename_i hleased
      refine ⟨hget, ?_⟩
      rintro rfl
      refine hleased ?_
      rw [(hi.leased k p hget).2.1]
      exact hget
  have hnot : ¬ ({ h.heap o with closing := some { stage := .authority, failed }, storage }
      : Owner).Held := by
    intro hheld
    obtain hs | hs | hs := hheld _ rfl <;> cases hs
  refine ⟨?_, ?_, ?_, ?_, ?_, ?_, hi.closes, ?_⟩
  · intro p hp
    obtain ⟨rfl, hself⟩ | ⟨_, hother⟩ := hcell p
    · exact hself ▸ (hi.owner p hp).setClosing hsome _ storage
    · exact hother ▸ hi.owner p hp
  · intro k p hget
    obtain ⟨hp, hkey, hstage⟩ := hi.found k p hget
    refine ⟨hp, ?_⟩
    obtain ⟨rfl, hself⟩ | ⟨_, hother⟩ := hcell p
    · simp only [Host.closeAuthority, hself]
      refine ⟨hkey, ?_⟩
      rintro ⟨q, hq, hs⟩
      cases hq
      cases hs
    · simp only [Host.closeAuthority, hother]
      exact ⟨hkey, hstage⟩
  · intro k p hget
    obtain ⟨hget, hne⟩ := hleases k p hget
    obtain ⟨hp, hrest⟩ := hi.leased k p hget
    refine ⟨hp, ?_⟩
    obtain ⟨hpo, _⟩ | ⟨_, hother⟩ := hcell p
    · exact absurd hpo hne
    · simp only [Host.closeAuthority, hother]
      exact hrest
  · intro p hp hheld
    obtain ⟨rfl, hself⟩ | ⟨hne, hother⟩ := hcell p
    · simp only [Host.closeAuthority, hself] at hheld
      exact absurd hheld hnot
    · simp only [Host.closeAuthority, hother] at hheld ⊢
      obtain ⟨hget, hlease⟩ := hi.held p hp hheld
      refine ⟨hget, fun hopen => ?_⟩
      have hleased := hlease hopen
      split
      · rename_i ho'
        rw [InsertionMap.get_delete, if_neg]
        · exact hleased
        · intro heq
          rw [heq, ho'] at hleased
          cases hleased
          exact hne rfl
      · exact hleased
  · intro p hp hheld
    obtain ⟨rfl, hself⟩ | ⟨_, hother⟩ := hcell p
    · simp only [Host.closeAuthority, hself]
      exact hstorage
    · simp only [Host.closeAuthority, hother] at hheld ⊢
      exact hi.storage p hp hheld
  · intro hclosed p hp
    obtain ⟨rfl, hself⟩ | ⟨_, hother⟩ := hcell p
    · simp only [Host.closeAuthority, hself]
      rfl
    · simp only [Host.closeAuthority, hother]
      exact hi.retired hclosed p hp
  · intro p hp
    obtain ⟨rfl, hself⟩ | ⟨_, hother⟩ := hcell p
    · simp only [Host.closeAuthority, hself]
      exact hi.anchored p hp
    · simp only [Host.closeAuthority, hother]
      exact hi.anchored p hp

theorem Inv.settle (hi : h.Inv) (ho : o < h.fresh) {c : Closing} (hc : (h.heap o).closing = some c)
    (hstage : c.stage = .authority) (failed : Bool) :
    ({ h.setOwner o { h.heap o with closing := some { stage := .settled, failed } } with
      owners := if h.owners.get (h.heap o).key = some o then h.owners.delete (h.heap o).key
        else h.owners }).Inv := by
  have hcell := setOwner_cases h o { h.heap o with closing := some { stage := .settled, failed } }
  have hsome : (h.heap o).closing.isSome := by rw [hc]; rfl
  have hold : ¬ (h.heap o).Held := by
    intro hheld
    obtain hs | hs | hs := hheld c hc <;> rw [hstage] at hs <;> cases hs
  have hnot : ¬ ({ h.heap o with closing := some { stage := .settled, failed } } : Owner).Held := by
    intro hheld
    obtain hs | hs | hs := hheld _ rfl <;> cases hs
  have howners : ∀ k p, (if h.owners.get (h.heap o).key = some o then
      h.owners.delete (h.heap o).key else h.owners).get k = some p →
      h.owners.get k = some p ∧ p ≠ o := by
    intro k p hget
    split at hget
    · obtain ⟨hk, hleft⟩ := InsertionMap.get_delete_iff.mp hget
      refine ⟨hleft, ?_⟩
      rintro rfl
      exact hk (hi.found k p hleft).2.1.symm
    · rename_i hfound
      refine ⟨hget, ?_⟩
      rintro rfl
      refine hfound ?_
      rw [(hi.found k p hget).2.1]
      exact hget
  refine ⟨?_, ?_, ?_, ?_, ?_, ?_, ?_, ?_⟩
  · intro p hp
    obtain ⟨rfl, hself⟩ | ⟨_, hother⟩ := hcell p
    · simp only [hself]
      exact (hi.owner p hp).setClosing hsome _ (h.heap p).storage
    · simp only [hother]
      exact hi.owner p hp
  · intro k p hget
    obtain ⟨hget, hne⟩ := howners k p hget
    obtain ⟨hp, hrest⟩ := hi.found k p hget
    refine ⟨hp, ?_⟩
    obtain ⟨hpo, _⟩ | ⟨_, hother⟩ := hcell p
    · exact absurd hpo hne
    · simp only [hother]
      exact hrest
  · intro k p hget
    obtain ⟨hp, hkey, hheld⟩ := hi.leased k p hget
    refine ⟨hp, ?_⟩
    obtain ⟨rfl, _⟩ | ⟨_, hother⟩ := hcell p
    · exact absurd hheld hold
    · simp only [hother]
      exact ⟨hkey, hheld⟩
  · intro p hp hheld
    obtain ⟨rfl, hself⟩ | ⟨hne, hother⟩ := hcell p
    · simp only [hself] at hheld
      exact absurd hheld hnot
    · simp only [hother] at hheld ⊢
      obtain ⟨hget, hlease⟩ := hi.held p hp hheld
      refine ⟨?_, hlease⟩
      split
      · rename_i hfound
        rw [InsertionMap.get_delete, if_neg]
        · exact hget
        · intro heq
          rw [heq, hfound] at hget
          cases hget
          exact hne rfl
      · exact hget
  · intro p hp hheld
    obtain ⟨rfl, hself⟩ | ⟨_, hother⟩ := hcell p
    · simp only [hself]
      exact hi.storage p hp hold
    · simp only [hother] at hheld ⊢
      exact hi.storage p hp hheld
  · intro hclosed p hp
    obtain ⟨rfl, hself⟩ | ⟨_, hother⟩ := hcell p
    · simp only [hself]
      rfl
    · simp only [hother]
      exact hi.retired hclosed p hp
  · intro q hq
    obtain ⟨hclosed, hin, hdone⟩ := hi.closes q hq
    refine ⟨hclosed, fun k p hget => hin k p (howners k p hget).1, fun hd k => ?_⟩
    cases hget : (if h.owners.get (h.heap o).key = some o then
      h.owners.delete (h.heap o).key else h.owners).get k with
    | none => rfl
    | some p =>
      have hnone := hdone hd k
      rw [(howners k p hget).1] at hnone
      cases hnone
  · intro p hp
    obtain ⟨rfl, hself⟩ | ⟨_, hother⟩ := hcell p
    · simp only [hself]
      exact hi.anchored p hp
    · simp only [hother]
      exact hi.anchored p hp

theorem Inv.advance (hi : h.Inv) (o : Nat) (stage : ClosingStage) (ok : Bool) :
    (h.advance o stage ok).Inv := by
  unfold Host.advance
  split
  · exact hi
  · rename_i c hc
    have hsome : (h.heap o).closing.isSome := by rw [hc]; rfl
    split
    · exact hi
    · rename_i hgo
      rw [not_or, Nat.not_le, not_not] at hgo
      obtain ⟨ho, hstage⟩ := hgo
      cases stage with
      | runtime => exact hi.proceed ho hc (.inl hstage) (.inl rfl)
      | storage =>
        simp only
        split
        · exact hi
        · exact hi.proceed ho hc (.inr hstage) (.inr rfl)
        · rename_i hopening hopened
          refine hi.closeAuthority ho hsome ?_ _
          cases hs : (h.heap o).storage with
          | opening => exact absurd hs hopening
          | opened => exact absurd hs hopened
          | failed => exact .inl rfl
          | closed => exact .inr rfl
      | storageClose => exact hi.closeAuthority ho hsome (.inr rfl) _
      | authority => exact hi.settle ho hc hstage _
      | settled => exact hi

theorem Inv.close (hi : h.Inv) : h.close.Inv := by
  have hcell : ∀ o, h.owners.get (h.heap o).key = some o ∧
        h.close.heap o = { (h.heap o).close with interrupted := true } ∨
      h.owners.get (h.heap o).key ≠ some o ∧ h.close.heap o = h.heap o := by
    intro o
    unfold Host.close
    by_cases hfound : h.owners.get (h.heap o).key = some o
    · exact .inl ⟨hfound, if_pos hfound⟩
    · exact .inr ⟨hfound, if_neg hfound⟩
  have hkept : ∀ o, (h.heap o).Kept (h.close.heap o) := by
    intro o
    obtain ⟨_, hself⟩ | ⟨_, hother⟩ := hcell o
    · rw [hself]
      exact .of_closing rfl (.inr rfl) (.inl rfl)
    · rw [hother]
      exact .of_closing rfl (.inl rfl) (.inl rfl)
  have hpublications : ∀ o, (h.close.heap o).publications = (h.heap o).publications := by
    intro o
    obtain ⟨_, hself⟩ | ⟨_, hother⟩ := hcell o
    · rw [hself]
      rfl
    · rw [hother]
  refine ⟨?_, ?_, ?_, ?_, ?_, ?_, ?_, ?_⟩
  · intro o ho
    obtain ⟨_, hself⟩ | ⟨_, hother⟩ := hcell o
    · rw [hself]
      exact (hi.owner o ho).host_closed.close.of_eq rfl rfl rfl rfl
    · rw [hother]
      exact (hi.owner o ho).host_closed
  · intro k o hget
    obtain ⟨ho, hkey, hsettled⟩ := hi.found k o hget
    exact ⟨ho, (hkept o).key.trans hkey, fun hs => hsettled ((hkept o).settled hs)⟩
  · intro k o hget
    obtain ⟨ho, hkey, hheld⟩ := hi.leased k o hget
    exact ⟨ho, (hkept o).key.trans hkey, (hkept o).held.mpr hheld⟩
  · intro o ho hheld
    rw [(hkept o).key]
    exact hi.held o ho ((hkept o).held.mp hheld)
  · intro o ho hheld
    have hold := hi.storage o ho fun hh => hheld ((hkept o).held.mpr hh)
    obtain heq | hopening := (hkept o).storage
    · rw [heq]
      exact hold
    · rw [hopening] at hold
      obtain hold | hold := hold <;> cases hold
  · intro _ o ho
    obtain ⟨_, hself⟩ | ⟨hlost, hother⟩ := hcell o
    · rw [hself]
      rfl
    · rw [hother]
      cases hc : (h.heap o).closing with
      | some c => rfl
      | none =>
        refine absurd (hi.held o ho ?_).1 hlost
        intro c hc'
        rw [hc] at hc'
        cases hc'
  · intro c hc
    obtain hc | rfl := mem_snoc.mp hc
    · obtain ⟨_, hrest⟩ := hi.closes c hc
      exact ⟨rfl, hrest⟩
    · refine ⟨rfl, fun k o hget => ?_, nofun⟩
      exact List.mem_map.mpr ⟨(k, o), InsertionMap.mem_entries.mpr hget, rfl⟩
  · intro o ho
    rw [hpublications]
    exact hi.anchored o ho

/-- A `close` that completes leaves no owner: each one that it knew has settled. -/
theorem Inv.closeDone (hi : h.Inv) (i : Nat) : (h.closeDone i).Inv := by
  unfold Host.closeDone
  split
  · exact hi
  · rename_i c hc
    split
    · rename_i hall
      obtain ⟨hclosed, hin, _⟩ := hi.closes c (List.mem_of_getElem? hc)
      have hnone : ∀ k, h.owners.get k = none := by
        intro k
        cases hget : h.owners.get k with
        | none => rfl
        | some o =>
          have hsettled := List.all_eq_true.mp hall o (hin k o hget)
          simp only [Host.settled, Option.any_eq_true, decide_eq_true_eq] at hsettled
          exact absurd hsettled (hi.found k o hget).2.2
      refine { hi with
        leased := fun _ _ hget => by cases hget
        held := fun o ho hheld => ⟨(hi.held o ho hheld).1, by rintro ⟨⟩⟩
        closes := ?_ }
      intro q hq
      obtain hq | rfl := List.mem_or_eq_of_mem_set hq
      · exact hi.closes q hq
      · exact ⟨hclosed, hin, fun _ => hnone⟩
    · exact hi

theorem Inv.publish (hi : h.Inv) (o : Nat) (confirmations : List Confirmation) :
    (h.publish o confirmations).Inv := by
  unfold Host.publish
  split
  · rename_i hopen
    obtain ⟨ho, hstorage⟩ := hopen
    have hheld : (h.heap o).Held := by
      by_contra hnot
      have hold := hi.storage o ho hnot
      rw [hstorage] at hold
      obtain hold | hold := hold <;> cases hold
    -- the owner under the key is the one that publishes
    rw [(hi.held o ho hheld).1]
    simp only [Host.on, if_pos ho]
    refine hi.setOwner ho (.of_closing rfl (.inl rfl) (.inl rfl)) ((hi.owner o ho).push _ _) ?_
    intro l hl p hp
    obtain hl | rfl := mem_snoc.mp hl
    · exact hi.anchored o ho l hl p hp
    · cases hp
      rfl
  · exact hi

theorem Inv.act (hi : h.Inv) (a : HostAction) (hclean : h.clean a = true) : (h.act a).Inv := by
  cases a with
  | openSession binding => exact hi.openSession binding
  | resumeOpen i => exact hi.resumeOpen hclean
  | storageSettled o ok =>
    simp only [Host.act]
    refine hi.on (fun owner => ?_) (fun owner howner => ?_) fun owner l hl => ?_
    · split
      · rename_i hs
        exact .of_closing rfl (.inl rfl) (.inr hs)
      · exact .of_closing rfl (.inl rfl) (.inl rfl)
    · split
      · exact howner.of_eq rfl rfl rfl rfl
      · exact howner
    · split at hl
      · exact .inr ⟨l, hl, rfl⟩
      · exact .inr ⟨l, hl, rfl⟩
  | opened o c ok =>
    simp only [Host.act]
    refine hi.on (fun owner => ?_) (fun owner howner => ?_) fun owner l hl => ?_
    · split
      · split
        · exact .of_closing rfl (.inl rfl) (.inl rfl)
        · exact .of_closing rfl (.inl rfl) (.inl rfl)
      · exact .of_closing rfl (.inl rfl) (.inl rfl)
    · split
      · rename_i hloading
        have hfree : ∀ l ∈ owner.releases.links, l.status ≠ .settled →
            l.value.conversationId ≠ c := by
          intro l hl hs heq
          have hpending := howner.pending l hl hs
          rw [heq, hloading.1] at hpending
          cases hpending
        split
        · exact howner.setRun .ready (.inr (by rw [hloading.1]; rintro ⟨⟩)) hfree
        · exact howner.release hloading.1 (by rintro ⟨⟩)
      · exact howner
    · refine .inr ⟨l, ?_, rfl⟩
      split at hl
      · split at hl
        · exact hl
        · exact hl
      · exact hl
  | interrupt o =>
    simp only [Host.act]
    exact hi.on (fun _ => .of_closing rfl (.inl rfl) (.inl rfl))
      (fun _ howner => howner.of_eq rfl rfl rfl rfl) fun _ l hl => .inr ⟨l, hl, rfl⟩
  | release o c =>
    simp only [Host.act]
    refine hi.on (fun owner => ?_) (fun owner howner => ?_) fun owner l hl => ?_
    · split
      · exact .of_closing rfl (.inl rfl) (.inl rfl)
      · exact .of_closing rfl (.inl rfl) (.inl rfl)
    · split
      · rename_i hready
        exact howner.release hready (by rintro ⟨⟩)
      · exact howner
    · refine .inr ⟨l, ?_, rfl⟩
      split at hl
      · exact hl
      · exact hl
  | startRelease o i =>
    simp only [Host.act]
    refine hi.on (fun owner => ?_) (fun owner howner => howner.startRelease i) fun owner l hl => ?_
    · unfold Owner.startRelease
      split
      · exact .of_closing rfl (.inl rfl) (.inl rfl)
      · split
        · split
          · exact .of_closing rfl (.inr rfl) (.inl rfl)
          · exact .of_closing rfl (.inl rfl) (.inl rfl)
        · exact .of_closing rfl (.inl rfl) (.inl rfl)
    · refine .inr ⟨l, ?_, rfl⟩
      unfold Owner.startRelease at hl
      split at hl
      · exact hl
      · split at hl
        · split at hl
          · exact hl
          · exact hl
        · exact hl
  | continueRelease o i =>
    have hsame : ∀ owner : Owner, (owner.continueRelease i).key = owner.key ∧
        (owner.continueRelease i).closing = owner.closing ∧
        (owner.continueRelease i).storage = owner.storage ∧
        (owner.continueRelease i).publications = owner.publications := by
      intro owner
      unfold Owner.continueRelease
      split
      · exact ⟨rfl, rfl, rfl, rfl⟩
      · split
        · split
          · split
            · exact ⟨rfl, rfl, rfl, rfl⟩
            · exact ⟨rfl, rfl, rfl, rfl⟩
            · exact ⟨rfl, rfl, rfl, rfl⟩
          · split
            · exact ⟨rfl, rfl, rfl, rfl⟩
            · exact ⟨rfl, rfl, rfl, rfl⟩
        · exact ⟨rfl, rfl, rfl, rfl⟩
    simp only [Host.act]
    refine hi.on (fun owner => ?_) (fun owner howner => howner.continueRelease i)
      fun owner l hl => ?_
    · obtain ⟨hkey, hclosing, hstorage, _⟩ := hsame owner
      exact .of_closing hkey (.inl hclosing) (.inl hstorage)
    · rw [(hsame owner).2.2.2] at hl
      exact .inr ⟨l, hl, rfl⟩
  | runtimeClosed o ok => exact hi.advance ..
  | storageAwaited o => exact hi.advance ..
  | storageClosed o ok => exact hi.advance ..
  | authorityClosed o => exact hi.advance ..
  | publish o confirmations => exact hi.publish o confirmations
  | serialize o =>
    simp only [Host.act]
    refine hi.on (fun _ => .of_closing rfl (.inl rfl) (.inl rfl))
      (fun _ howner => howner.push none []) fun owner l hl => ?_
    obtain hl | rfl := mem_snoc.mp hl
    · exact .inr ⟨l, hl, rfl⟩
    · exact .inl rfl
  | startWork o i =>
    simp only [Host.act]
    refine hi.on (fun _ => .of_closing rfl (.inl rfl) (.inl rfl))
      (fun _ howner => howner.startWork i) fun owner l hl => ?_
    obtain ⟨j, hj⟩ := List.mem_iff_getElem?.mp hl
    obtain hold | ⟨_, q, hq, _, rfl⟩ := PromiseTail.started hj
    · exact .inr ⟨l, List.mem_of_getElem? hold, rfl⟩
    · exact .inr ⟨q, List.mem_of_getElem? hq, rfl⟩
  | settleWork o i outcome =>
    have hreturn : outcome = .acknowledged → ∀ l, (h.heap o).publications.links[i]? = some l →
        ∀ c ∈ l.value.confirmations.dropLast, c.throws = false := by
      intro hack l hl c hc
      simp only [clean, hack, ne_eq, not_true_eq_false, decide_false, Bool.false_or, hl,
        Option.all_some, List.all_eq_true, Bool.not_eq_true'] at hclean
      exact hclean c hc
    show (h.on o fun owner => owner.settleWork i outcome).Inv
    unfold Host.on
    split
    · rename_i ho
      refine hi.setOwner ho ?_ ((hi.owner o ho).settleWork i outcome hreturn) ?_
      · cases outcome <;> exact .of_closing rfl (.inl rfl) (.inl rfl)
      · have hlinks : ∀ f : Publication → Publication, (∀ p, (f p).publisher = p.publisher) →
            ∀ l ∈ ((h.heap o).publications.settle i f).links, ∀ p,
              l.value.publisher = some p → p = o := by
          intro f hf l hl p hp
          obtain ⟨j, hj⟩ := List.mem_iff_getElem?.mp hl
          obtain ⟨hold, _⟩ | ⟨_, q, hq, _, rfl⟩ := PromiseTail.settled hj
          · exact hi.anchored o ho l (List.mem_of_getElem? hold) p hp
          · exact hi.anchored o ho q (List.mem_of_getElem? hq) p ((hf _).symm.trans hp)
        cases outcome with
        | acknowledged => exact hlinks _ fun _ => rfl
        | notSent => exact hlinks id fun _ => rfl
        | failed => exact hlinks id fun _ => rfl
    · exact hi
  | close => exact hi.close
  | closed i => exact hi.closeDone i

theorem Inv.run (hi : h.Inv) {actions : List HostAction} (hclean : h.cleanRun actions = true) :
    (h.run actions).Inv := by
  unfold Host.run
  induction actions generalizing h with
  | nil => exact hi
  | cons a actions ih =>
    simp only [cleanRun, Bool.and_eq_true] at hclean
    exact ih (hi.act a hclean.1) hclean.2

/-! ### What follows -/

def StorageOpen (owner : Owner) : Prop := owner.storage = .opening ∨ owner.storage = .opened

structure Sound (h : Host) : Prop where
  /-- one open storage for a lease incarnation -/
  single : ∀ o o', o < h.fresh → o' < h.fresh → (h.heap o).key = (h.heap o').key →
    StorageOpen (h.heap o) → StorageOpen (h.heap o') → o = o'
  /-- an owner closes with the conversation that was left, or with the host -/
  closing : ∀ o < h.fresh, (h.heap o).closing.isSome → h.closed = true ∨
    ∃ l ∈ (h.heap o).releases.links, l.value.last = true ∧
      ∀ c, (h.heap o).runs.get c ≠ none → c = l.value.conversationId
  released : ∀ o < h.fresh, (∀ c, (h.heap o).runs.get c = none) → (h.heap o).closing.isSome
  retired : h.closed = true → ∀ o < h.fresh, (h.heap o).closing.isSome
  /-- nothing is left once `close` has completed -/
  gone : ∀ c ∈ h.closes, c.done = true → ∀ k, h.owners.get k = none
  serialised : ∀ o p p' (i j : Nat) (a b : Link Publication), p < h.fresh → p' < h.fresh →
    (h.heap p).publications.links[i]? = some a → (h.heap p').publications.links[j]? = some b →
    a.value.publisher = some o → b.value.publisher = some o →
    a.status = .running → b.status = .running → p = p' ∧ i = j
  confirmed : ∀ o < h.fresh, ∀ l ∈ (h.heap o).publications.links, l.value.calls =
    if l.value.acknowledged then l.value.confirmations.map (·.id) else []

theorem Inv.sound (hi : h.Inv) : h.Sound := by
  refine ⟨?_, fun o ho => (hi.owner o ho).closing, fun o ho => (hi.owner o ho).empty, hi.retired,
    fun c hc => (hi.closes c hc).2.2, ?_, fun o ho l hl => ((hi.owner o ho).confirmed l hl).1⟩
  · have hheld : ∀ o < h.fresh, StorageOpen (h.heap o) → h.owners.get (h.heap o).key = some o := by
      intro o ho hopen
      refine (hi.held o ho ?_).1
      by_contra hnot
      obtain hs | hs := hi.storage o ho hnot <;> obtain ho | ho := hopen <;>
        rw [hs] at ho <;> cases ho
    intro o o' ho ho' hkey hopen hopen'
    have hget := hheld o ho hopen
    rw [hkey, hheld o' ho' hopen'] at hget
    exact (Option.some.inj hget).symm
  · intro o p p' i j a b hp hp' ha hb hao hbo harun hbrun
    have hpo := hi.anchored p hp a (List.mem_of_getElem? ha) o hao
    have hpo' := hi.anchored p' hp' b (List.mem_of_getElem? hb) o hbo
    subst hpo
    subst hpo'
    exact ⟨rfl, (h.heap o).publications.running_unique ha hb harun hbrun⟩

end Host

def leaseOne : ExecutionIdentity := { leaseId := 5, runId := 6, fencingToken := 7 }

def attached (conversationId : Nat) : DurableRunBinding where
  tenantId := 1
  piSessionId := 2
  conversationId
  runId := 6
  writerId := 5
  identity := leaseOne

/-- Two conversations, a publication of the first, and both releases. -/
def twoConversations : List HostAction :=
  [.openSession (attached 1), .openSession (attached 2), .storageSettled 0 true, .opened 0 1 true,
    .opened 0 2 true, .publish 0 [{ id := 8 }, { id := 9 }], .startWork 0 0,
    .settleWork 0 0 .acknowledged, .release 0 1, .release 0 2, .startRelease 0 0,
    .continueRelease 0 0, .startRelease 0 1, .runtimeClosed 0 true, .storageAwaited 0,
    .storageClosed 0 true, .authorityClosed 0, .continueRelease 0 1]

/-- An `open` waits for the closing of the last conversation while the host is closed. -/
def lateOpen : List HostAction :=
  [.openSession (attached 1), .storageSettled 0 true, .opened 0 1 true, .release 0 1,
    .startRelease 0 0, .openSession (attached 2), .close, .runtimeClosed 0 true, .storageAwaited 0,
    .storageClosed 0 true, .authorityClosed 0, .resumeOpen 0, .closed 0]

/-- In every run whose steps are clean: one open storage for a lease incarnation, owners that close with
their last conversation or with the host, no owner after `close`, publications one after the other, and
callbacks that run once where their publication was acknowledged. -/
theorem native_storage_owners (actions : List HostAction)
    (h : ({} : Host).cleanRun actions = true) : (({} : Host).run actions).Sound :=
  (Host.Inv.empty.run h).sound

theorem native_storage_owners_released :
    (({} : Host).run twoConversations).Sound ∧
      (({} : Host).run twoConversations).owners.get (attached 1).key = none :=
  ⟨native_storage_owners twoConversations (by decide), by decide⟩

theorem late_open_survives_close : ¬ ∀ actions, (({} : Host).run actions).Sound := by
  intro h
  have hdone : (({} : Host).run lateOpen).closes.any (·.done) = true := by decide
  obtain ⟨c, hc, hd⟩ := List.any_eq_true.mp hdone
  have hgone := (h lateOpen).gone c hc hd (attached 1).key
  have howner : (({} : Host).run lateOpen).owners.get (attached 1).key = some 1 := by decide
  rw [howner] at hgone
  cases hgone

end Durable
end PiCloud
