import Mathlib.Algebra.BigOperators.Group.Finset.Basic
import PiCloud.Lib.History
import PiCloud.Runtime.SessionPublicationIngress

/-!
# Runtime.PublicationOrder

The publications of a session go out one at a time and in order, and the budget counts what has not
ended.

* `Tidy`: one queue, its count and the stages of its publications.
* `Sound`: the partitions, the queues and the counters.
* `Sound.control`, `Sound.turn`, `Sound.answer`, `Sound.settle`, …: each action keeps it.
* `publications_ordered`: after any actions, and whatever follows a revocation.
-/

namespace PiCloud
namespace Runtime

open Lib

/-- What the stage of a publication says about its promise. -/
def Staged (l : Link Publication) : Prop :=
  match l.status with
  | .waiting => l.value.sent = false ∧ l.value.outcome = none
  | .running => l.value.outcome = none → l.value.sent = true
  | .settled => l.value.outcome.isSome = true

theorem Staged.running {l : Link Publication} (h : Staged l) (hl : l.value.inFlight = true) :
    l.status = .running := by
  unfold Publication.inFlight at hl
  rw [Bool.and_eq_true, Option.isNone_iff_eq_none] at hl
  unfold Staged at h
  cases hs : l.status with
  | waiting =>
    rw [hs] at h
    rw [h.1] at hl
    cases hl.1
  | running => rfl
  | settled =>
    rw [hs, hl.2] at h
    cases h

structure Tidy {κ : Type} (submitted : Nat) (queue : SessionQueue κ) : Prop where
  pending : queue.pending = queue.tail.load fun _ => 1
  items : ∀ (i : Nat) l, queue.tail.links[i]? = some l → l.value.item < submitted
  increasing : ∀ (i j : Nat) l m, i < j → queue.tail.links[i]? = some l →
    queue.tail.links[j]? = some m → l.value.item < m.value.item
  stages : ∀ (i : Nat) l, queue.tail.links[i]? = some l → Staged l

section Queue
variable {κ : Type} {n : Nat} {queue : SessionQueue κ}

theorem Tidy.empty (key : κ) (g : Nat) : Tidy n ({ key, generation := g } : SessionQueue κ) where
  pending := rfl
  items _ _ h := by cases h
  increasing _ _ _ _ _ h := by cases h
  stages _ _ h := by cases h

theorem Tidy.push (h : Tidy n queue) (factId bytes : Nat) :
    Tidy (n + 1) { queue with
      tail := queue.tail.push { item := n, factId, bytes }
      pending := queue.pending + 1 } := by
  have hcases : ∀ (i : Nat) l,
      (queue.tail.push { item := n, factId, bytes }).links[i]? = some l →
      queue.tail.links[i]? = some l ∨ i = queue.tail.links.length ∧ l.value.item = n ∧ Staged l := by
    intro i l hl
    rcases PromiseTail.pushed hl with hl | ⟨hi, rfl⟩
    · exact .inl hl
    · exact .inr ⟨hi, rfl, rfl, rfl⟩
  constructor
  · show queue.pending + 1 = _
    rw [PromiseTail.load_push, h.pending]
  · intro i l hl
    rcases hcases i l hl with hl | ⟨-, hl, -⟩
    · exact Nat.lt_succ_of_lt (h.items i l hl)
    · rw [hl]
      exact Nat.lt_succ_self n
  · intro i j l m hij hl hm
    rcases hcases j m hm with hm | ⟨rfl, hm, -⟩
    · rcases hcases i l hl with hl | ⟨rfl, -, -⟩
      · exact h.increasing i j l m hij hl hm
      · have hlt := (List.getElem?_eq_some_iff.mp hm).1
        omega
    · rcases hcases i l hl with hl | ⟨rfl, -, -⟩
      · rw [hm]
        exact h.items i l hl
      · exact absurd hij (Nat.lt_irrefl _)
  · intro i l hl
    rcases hcases i l hl with hl | ⟨-, -, hl⟩
    · exact h.stages i l hl
    · exact hl

theorem Tidy.mono (h : Tidy n queue) {m : Nat} (hm : n ≤ m) : Tidy m queue :=
  { h with items := fun i l hl => Nat.lt_of_lt_of_le (h.items i l hl) hm }

theorem Tidy.move (h : Tidy n queue) {i : Nat} {source target : LinkStatus}
    {hs : source ≠ .settled} {f : Publication → Publication} {pending : Nat}
    (hitem : ∀ p, (f p).item = p.item)
    (hstage : ∀ l, queue.tail.links[i]? = some l → l.status = source →
      Staged { l with value := f l.value, status := target })
    (hpending : pending = (queue.tail.move i source target hs f).load fun _ => 1) :
    Tidy n { queue with tail := queue.tail.move i source target hs f, pending } := by
  have hold : ∀ (j : Nat) l, (queue.tail.move i source target hs f).links[j]? = some l →
      ∃ l', queue.tail.links[j]? = some l' ∧ l'.value.item = l.value.item := by
    intro j l hl
    rcases PromiseTail.moved (h := hs) hl with ⟨hl, -⟩ | ⟨rfl, l', hl', -, rfl⟩
    · exact ⟨l, hl, rfl⟩
    · exact ⟨l', hl', (hitem _).symm⟩
  constructor
  · exact hpending
  · intro j l hl
    obtain ⟨l', hl', heq⟩ := hold j l hl
    rw [← heq]
    exact h.items j l' hl'
  · intro j k l m hjk hl hm
    obtain ⟨l', hl', heq⟩ := hold j l hl
    obtain ⟨m', hm', heq'⟩ := hold k m hm
    rw [← heq, ← heq']
    exact h.increasing j k l' m' hjk hl' hm'
  · intro j l hl
    rcases PromiseTail.moved (h := hs) hl with ⟨hl, -⟩ | ⟨rfl, l', hl', hs', rfl⟩
    · exact h.stages j l hl
    · exact hstage l' hl' hs'

end Queue

namespace SessionPublicationIngress

variable {κ : Type}

def underway (s : SessionPublicationIngress κ) (weight : Publication → Nat) : Nat :=
  ∑ q ∈ Finset.range s.nextQueue, (s.queues q).elim 0 fun queue => queue.tail.load weight

theorem underway_setQueue {s : SessionPublicationIngress κ} {q : Nat} {queue : SessionQueue κ}
    (hq : s.queues q = some queue) (hlt : q < s.nextQueue) (queue' : SessionQueue κ)
    (weight : Publication → Nat) :
    (s.setQueue q queue').underway weight + queue.tail.load weight =
      s.underway weight + queue'.tail.load weight := by
  have hmem : q ∈ Finset.range s.nextQueue := Finset.mem_range.mpr hlt
  unfold underway
  show (∑ r ∈ Finset.range s.nextQueue, _) + _ = _
  rw [← Finset.add_sum_erase _ _ hmem, ← Finset.add_sum_erase _ _ hmem, hq]
  have hrest : ∀ r ∈ (Finset.range s.nextQueue).erase q, (s.setQueue q queue').queues r =
      s.queues r := fun r hr => Function.update_of_ne (Finset.ne_of_mem_erase hr) ..
  rw [Finset.sum_congr rfl fun r hr => by rw [hrest r hr]]
  rw [show (s.setQueue q queue').queues q = some queue' from Function.update_self ..]
  simp only [Option.elim_some]
  omega

theorem load_le_underway {s : SessionPublicationIngress κ} {q : Nat} {queue : SessionQueue κ}
    (hq : s.queues q = some queue) (hlt : q < s.nextQueue) (weight : Publication → Nat) :
    queue.tail.load weight ≤ s.underway weight := by
  have hempty := underway_setQueue hq hlt { queue with tail := {} } weight
  rw [PromiseTail.load_empty] at hempty
  omega

theorem underway_newQueue {s t : SessionPublicationIngress κ} {queue : SessionQueue κ}
    (hn : t.nextQueue = s.nextQueue + 1)
    (hqueues : t.queues = Function.update s.queues s.nextQueue (some queue))
    (weight : Publication → Nat) :
    t.underway weight = s.underway weight + queue.tail.load weight := by
  unfold underway
  rw [hn, Finset.sum_range_succ, hqueues, Function.update_self, Option.elim_some]
  congr 1
  refine Finset.sum_congr rfl fun r hr => ?_
  rw [Function.update_of_ne (Nat.ne_of_lt (Finset.mem_range.mp hr))]

structure Sound [DecidableEq κ] (capacity : ProducerCapacity) (lane : κ → Nat)
    (s : SessionPublicationIngress κ) : Prop where
  installed : ∀ p g, s.partitions p = some g → g < s.nextGeneration ∧
    (s.generations g).partition = p
  current : ∀ g, (s.generations g).current = true → g < s.nextGeneration ∧
    s.partitions (s.generations g).partition = some g
  fresh : ∀ g, s.nextGeneration ≤ g → s.generations g = {}
  closed : ∀ g, (s.generations g).closed = true → (s.generations g).current = false ∧
    ¬ s.Sending g
  single : ∀ g g', g < s.nextGeneration → g' < s.nextGeneration → g ≠ g' →
    (s.generations g).partition = (s.generations g').partition →
    (s.generations g).closed = true ∨ (s.generations g').closed = true
  queue : ∀ q queue, s.queues q = some queue → q < s.nextQueue ∧
    queue.generation < s.nextGeneration ∧
    (s.generations queue.generation).partition = lane queue.key
  place : ∀ g k q, (s.generations g).queues.get k = some q →
    ∃ queue, s.queues q = some queue ∧ queue.key = k ∧ queue.generation = g
  busy : ∀ q queue, s.queues q = some queue → queue.pending ≠ 0 →
    (s.generations queue.generation).queues.get queue.key = some q
  tidy : ∀ q queue, s.queues q = some queue → Tidy s.submitted queue
  facts : s.pendingFacts = s.underway fun _ => 1
  bytes : s.pendingBytes = s.underway (·.bytes)
  within : s.pendingFacts ≤ capacity.maximumPendingFacts ∧
    s.pendingBytes ≤ capacity.maximumPendingBytes
  past : ∀ e ∈ s.sent, e.2.1 < s.submitted
  ahead : ∀ q queue, s.queues q = some queue → (s.generations queue.generation).current = true →
    ∀ (i : Nat) l, queue.tail.links[i]? = some l → l.status = .waiting →
      ∀ e ∈ s.sent, e.1 = queue.key → e.2.1 < l.value.item
  order : s.sent.Pairwise fun a b => a.1 = b.1 → a.2.1 < b.2.1

section Changes
variable [DecidableEq κ] {capacity : ProducerCapacity} {lane : κ → Nat}
  {s : SessionPublicationIngress κ}

theorem Sound.initial : Sound capacity lane (initial : SessionPublicationIngress κ) where
  installed _ _ h := by cases h
  current _ h := by cases h
  fresh _ _ := rfl
  closed _ h := by cases h
  single _ _ h := absurd h (Nat.not_lt_zero _)
  queue _ _ h := by cases h
  place _ _ _ h := by cases h
  busy _ _ h := by cases h
  tidy _ _ h := by cases h
  facts := rfl
  bytes := rfl
  within := ⟨Nat.zero_le _, Nat.zero_le _⟩
  past _ h := by cases h
  ahead _ _ h := by cases h
  order := List.Pairwise.nil

theorem Sound.same_generation (h : Sound capacity lane s) {q q' : Nat} {queue queue' : SessionQueue κ}
    (hq : s.queues q = some queue) (hq' : s.queues q' = some queue') (hkey : queue.key = queue'.key)
    (hopen : (s.generations queue.generation).closed ≠ true)
    (hopen' : (s.generations queue'.generation).closed ≠ true) :
    queue.generation = queue'.generation := by
  obtain ⟨-, hg, hlane⟩ := h.queue q queue hq
  obtain ⟨-, hg', hlane'⟩ := h.queue q' queue' hq'
  by_contra hne
  rcases h.single _ _ hg hg' hne (by rw [hlane, hlane', hkey]) with hc | hc
  · exact hopen hc
  · exact hopen' hc

theorem Sound.partitions (h : Sound capacity lane s) {t : SessionPublicationIngress κ}
    (hqueues : t.queues = s.queues) (hnext : t.nextQueue = s.nextQueue)
    (hfacts : t.pendingFacts = s.pendingFacts) (hbytes : t.pendingBytes = s.pendingBytes)
    (hsubmitted : t.submitted = s.submitted) (hsent : t.sent = s.sent)
    (hnextGeneration : s.nextGeneration ≤ t.nextGeneration)
    (hsame : ∀ g < s.nextGeneration, (t.generations g).partition = (s.generations g).partition ∧
      (t.generations g).queues = (s.generations g).queues ∧
      ((t.generations g).current = true → (s.generations g).current = true))
    (hnew : ∀ g, s.nextGeneration ≤ g → (t.generations g).queues = {})
    (hinstalled : ∀ p g, t.partitions p = some g → g < t.nextGeneration ∧
      (t.generations g).partition = p)
    (hcurrent : ∀ g, (t.generations g).current = true → g < t.nextGeneration ∧
      t.partitions (t.generations g).partition = some g)
    (hfresh : ∀ g, t.nextGeneration ≤ g → t.generations g = {})
    (hclosed : ∀ g, (t.generations g).closed = true → (t.generations g).current = false ∧
      ¬ s.Sending g)
    (hsingle : ∀ g g', g < t.nextGeneration → g' < t.nextGeneration → g ≠ g' →
      (t.generations g).partition = (t.generations g').partition →
      (t.generations g).closed = true ∨ (t.generations g').closed = true) :
    Sound capacity lane t := by
  have hunderway : t.underway = s.underway := by
    funext weight
    unfold underway
    rw [hqueues, hnext]
  constructor
  · exact hinstalled
  · exact hcurrent
  · exact hfresh
  · intro g hg
    refine ⟨(hclosed g hg).1, fun hsending => (hclosed g hg).2 ?_⟩
    unfold Sending at hsending ⊢
    rw [hqueues] at hsending
    exact hsending
  · exact hsingle
  · intro q queue hq
    rw [hqueues] at hq
    obtain ⟨hlt, hg, hlane⟩ := h.queue q queue hq
    rw [hnext, (hsame _ hg).1]
    exact ⟨hlt, Nat.lt_of_lt_of_le hg hnextGeneration, hlane⟩
  · intro g k q hget
    rw [hqueues]
    by_cases hg : g < s.nextGeneration
    · rw [(hsame g hg).2.1] at hget
      exact h.place g k q hget
    · rw [hnew g (Nat.le_of_not_lt hg)] at hget
      cases hget
  · intro q queue hq hpending
    rw [hqueues] at hq
    rw [(hsame _ (h.queue q queue hq).2.1).2.1]
    exact h.busy q queue hq hpending
  · rw [hqueues, hsubmitted]
    exact h.tidy
  · rw [hfacts, hunderway]
    exact h.facts
  · rw [hbytes, hunderway]
    exact h.bytes
  · rw [hfacts, hbytes]
    exact h.within
  · rw [hsent, hsubmitted]
    exact h.past
  · intro q queue hq hcurr
    rw [hqueues] at hq
    rw [hsent]
    exact h.ahead q queue hq ((hsame _ (h.queue q queue hq).2.1).2.2 hcurr)
  · rw [hsent]
    exact h.order

omit [DecidableEq κ] in
theorem generations_setGeneration (s : SessionPublicationIngress κ) (g r : Nat)
    (generation : Generation κ) :
    (s.setGeneration g generation).generations r =
      if r = g then generation else s.generations r := Function.update_apply ..

theorem Sound.install (h : Sound capacity lane s) {p : Nat} {t : SessionPublicationIngress κ}
    (hp : Promised lane s (.installPartition p)) (ht : s.installPartition p = some t) :
    Sound capacity lane t := by
  obtain ⟨hfree, ht⟩ := guard_some ht
  cases ht
  have hold : ∀ g < s.nextGeneration, Function.update s.generations s.nextGeneration
      { partition := p, current := true } g = s.generations g := fun g hg =>
    Function.update_of_ne (Nat.ne_of_lt hg) ..
  have hnew : Function.update s.generations s.nextGeneration
      { partition := p, current := true } s.nextGeneration =
        { partition := p, current := true } := Function.update_self ..
  have hcases : ∀ g, g < s.nextGeneration + 1 → g < s.nextGeneration ∨ g = s.nextGeneration :=
    fun g hg => Nat.lt_succ_iff_lt_or_eq.mp hg
  have hlater : ∀ g, s.nextGeneration ≤ g → g ≠ s.nextGeneration →
      Function.update s.generations s.nextGeneration { partition := p, current := true } g = {} := by
    intro g hg hne
    rw [Function.update_of_ne hne]
    exact h.fresh g hg
  refine h.partitions rfl rfl rfl rfl rfl rfl (Nat.le_succ _) ?_ ?_ ?_ ?_ ?_ ?_ ?_
  · intro g hg
    refine ⟨congrArg Generation.partition (hold g hg), congrArg Generation.queues (hold g hg),
      fun hc => ?_⟩
    change (Function.update s.generations _ _ g).current = true at hc
    rwa [hold g hg] at hc
  · intro g hg
    show (Function.update s.generations _ _ g).queues = _
    by_cases hne : g = s.nextGeneration
    · rw [hne, hnew]
    · rw [hlater g hg hne]
  · intro r g hr
    change Function.update s.partitions p (some s.nextGeneration) r = some g at hr
    show g < s.nextGeneration + 1 ∧ (Function.update s.generations _ _ g).partition = r
    by_cases hrp : r = p
    · rw [hrp, Function.update_self] at hr
      cases hr
      rw [hnew, hrp]
      exact ⟨Nat.lt_succ_self _, rfl⟩
    · rw [Function.update_of_ne hrp] at hr
      obtain ⟨hg, hpart⟩ := h.installed r g hr
      rw [hold g hg]
      exact ⟨Nat.lt_succ_of_lt hg, hpart⟩
  · intro g hg
    change (Function.update s.generations _ _ g).current = true at hg
    show g < s.nextGeneration + 1 ∧ Function.update s.partitions p (some s.nextGeneration)
      (Function.update s.generations _ _ g).partition = some g
    by_cases hne : g = s.nextGeneration
    · rw [hne, hnew, Function.update_self]
      exact ⟨Nat.lt_succ_self _, rfl⟩
    · rw [Function.update_of_ne hne] at hg ⊢
      obtain ⟨hlt, hinstalled⟩ := h.current g hg
      refine ⟨Nat.lt_succ_of_lt hlt, ?_⟩
      rw [Function.update_of_ne]
      · exact hinstalled
      · intro hpart
        rw [hpart] at hinstalled
        rw [hinstalled, Option.all_some, hg] at hfree
        cases hfree
  · intro g hg
    show Function.update s.generations _ _ g = _
    change s.nextGeneration + 1 ≤ g at hg
    exact hlater g (Nat.le_of_succ_le hg) (Nat.ne_of_gt hg)
  · intro g hg
    change (Function.update s.generations _ _ g).closed = true at hg
    show (Function.update s.generations _ _ g).current = false ∧ _
    by_cases hne : g = s.nextGeneration
    · rw [hne, hnew] at hg
      cases hg
    · rw [Function.update_of_ne hne] at hg ⊢
      exact h.closed g hg
  · intro g g' hg hg' hne hpart
    change (Function.update s.generations _ _ g).partition =
      (Function.update s.generations _ _ g').partition at hpart
    show (Function.update s.generations _ _ g).closed = true ∨
      (Function.update s.generations _ _ g').closed = true
    rcases hcases g hg with hlt | rfl
    · rcases hcases g' hg' with hlt' | rfl
      · rw [hold g hlt, hold g' hlt'] at hpart ⊢
        exact h.single g g' hlt hlt' hne hpart
      · rw [hold g hlt, hnew] at hpart
        rw [hold g hlt]
        exact .inl (hp g hlt hpart)
    · rcases hcases g' hg' with hlt' | rfl
      · rw [hold g' hlt', hnew] at hpart
        rw [hold g' hlt']
        exact .inr (hp g' hlt' hpart.symm)
      · exact absurd rfl hne

theorem Sound.retire (h : Sound capacity lane s) {t : SessionPublicationIngress κ}
    (hqueues : t.queues = s.queues) (hnext : t.nextQueue = s.nextQueue)
    (hfacts : t.pendingFacts = s.pendingFacts) (hbytes : t.pendingBytes = s.pendingBytes)
    (hsubmitted : t.submitted = s.submitted) (hsent : t.sent = s.sent)
    (hnextGeneration : t.nextGeneration = s.nextGeneration)
    (hsame : ∀ g, (t.generations g).partition = (s.generations g).partition ∧
      (t.generations g).queues = (s.generations g).queues ∧
      ((t.generations g).current = true → (s.generations g).current = true))
    (hclosed : ∀ g, (s.generations g).closed = true → (t.generations g).closed = true)
    (hnew : ∀ g, (t.generations g).closed = true → (s.generations g).closed = true ∨
      (s.generations g).current = false ∧ ¬ s.Sending g)
    (hfresh : ∀ g, s.nextGeneration ≤ g → t.generations g = {})
    (hpartitions : ∀ p g, t.partitions p = some g → s.partitions p = some g)
    (hkeep : ∀ g, (t.generations g).current = true →
      t.partitions (s.generations g).partition = s.partitions (s.generations g).partition) :
    Sound capacity lane t := by
  refine h.partitions hqueues hnext hfacts hbytes hsubmitted hsent (Nat.le_of_eq hnextGeneration.symm)
    (fun g _ => hsame g) ?_ ?_ ?_ ?_ ?_ ?_
  · intro g hg
    rw [(hsame g).2.1, h.fresh g hg]
  · intro p g hp
    rw [hnextGeneration, (hsame g).1]
    exact h.installed p g (hpartitions p g hp)
  · intro g hg
    rw [hnextGeneration, (hsame g).1, hkeep g hg]
    exact h.current g ((hsame g).2.2 hg)
  · intro g hg
    rw [hnextGeneration] at hg
    exact hfresh g hg
  · intro g hg
    have hold : (s.generations g).current = false ∧ ¬ s.Sending g :=
      (hnew g hg).elim (h.closed g) id
    refine ⟨?_, hold.2⟩
    cases hc : (t.generations g).current with
    | false => rfl
    | true => exact ((hsame g).2.2 hc).symm.trans hold.1
  · intro g g' hg hg' hne hpart
    rw [hnextGeneration] at hg hg'
    rw [(hsame g).1, (hsame g').1] at hpart
    exact (h.single g g' hg hg' hne hpart).imp (hclosed g) (hclosed g')

theorem Sound.revoke (h : Sound capacity lane s) (p : Nat) : Sound capacity lane (s.revoke p) := by
  unfold SessionPublicationIngress.revoke
  split
  · exact h
  rename_i g hg
  have hgen : ∀ r, (s.setGeneration g { s.generations g with current := false }).generations r =
      s.generations r ∨ r = g ∧
        (s.setGeneration g { s.generations g with current := false }).generations r =
          { s.generations r with current := false } := by
    intro r
    rw [generations_setGeneration]
    split
    · rename_i hr
      exact .inr ⟨hr, by rw [hr]⟩
    · exact .inl rfl
  refine h.retire rfl rfl rfl rfl rfl rfl rfl ?_ ?_ ?_ ?_ (fun _ _ hp => hp) fun _ _ => rfl
  · intro r
    rcases hgen r with hr | ⟨-, hr⟩
    · rw [hr]
      exact ⟨rfl, rfl, id⟩
    · rw [hr]
      exact ⟨rfl, rfl, nofun⟩
  · intro r hr'
    rcases hgen r with hr | ⟨-, hr⟩
    · rw [hr]
      exact hr'
    · rw [hr]
      exact hr'
  · intro r hr'
    rcases hgen r with hr | ⟨-, hr⟩
    · rw [hr] at hr'
      exact .inl hr'
    · rw [hr] at hr'
      exact .inl hr'
  · intro r hr'
    rcases hgen r with hr | ⟨rfl, -⟩
    · rw [hr]
      exact h.fresh r hr'
    · exact absurd (h.installed p r hg).1 (Nat.not_lt.mpr hr')

theorem Sound.endGeneration (h : Sound capacity lane s) {g : Nat}
    (hp : Promised lane s (.closed g : IngressAction κ)) :
    Sound capacity lane (s.setGeneration g { s.generations g with closed := true }) := by
  obtain ⟨hlt, hcurrent, hsending⟩ := hp
  have hgen : ∀ r, (s.setGeneration g { s.generations g with closed := true }).generations r =
      if r = g then { s.generations g with closed := true } else s.generations r := fun r =>
    generations_setGeneration ..
  refine h.retire rfl rfl rfl rfl rfl rfl rfl ?_ ?_ ?_ ?_ (fun _ _ hp => hp) fun _ _ => rfl
  · intro r
    rw [hgen]
    split
    · rename_i hr
      rw [hr]
      exact ⟨rfl, rfl, id⟩
    · exact ⟨rfl, rfl, id⟩
  · intro r hr
    rw [hgen]
    split
    · rfl
    · exact hr
  · intro r hr
    rw [hgen] at hr
    split at hr
    · rename_i heq
      rw [heq]
      exact .inr ⟨hcurrent, hsending⟩
    · exact .inl hr
  · intro r hr
    rw [hgen, if_neg]
    · exact h.fresh r hr
    · rintro rfl
      exact absurd hlt (Nat.not_lt.mpr hr)

theorem Sound.close (h : Sound capacity lane s) : Sound capacity lane { s with
    generations := fun g => { s.generations g with
      current := (s.generations g).current && s.partitions (s.generations g).partition ≠ some g } } := by
  refine h.retire rfl rfl rfl rfl rfl rfl rfl ?_ ?_ ?_ ?_ (fun _ _ hp => hp) fun _ _ => rfl
  · intro g
    refine ⟨rfl, rfl, fun hc => ?_⟩
    dsimp only at hc
    rw [Bool.and_eq_true] at hc
    exact hc.1
  · exact fun _ hg => hg
  · exact fun _ hg => .inl hg
  · intro g hg
    dsimp only
    rw [h.fresh g hg]
    rfl

theorem Sound.clear (h : Sound capacity lane s) (hp : Promised lane s (.clear : IngressAction κ)) :
    Sound capacity lane { s with partitions := fun _ => none } := by
  refine h.retire rfl rfl rfl rfl rfl rfl rfl (fun _ => ⟨rfl, rfl, id⟩) (fun _ hg => hg)
    (fun _ hg => .inl hg) h.fresh nofun fun g hg => ?_
  have hfalse := hp g (h.current g hg).1
  exact absurd (hg.symm.trans hfalse) nofun

omit [DecidableEq κ] in
theorem queues_setQueue (s : SessionPublicationIngress κ) (q r : Nat) (queue : SessionQueue κ) :
    (s.setQueue q queue).queues r = if r = q then some queue else s.queues r :=
  Function.update_apply ..

theorem Sound.edit (h : Sound capacity lane s) {q : Nat} {queue : SessionQueue κ}
    (hq : s.queues q = some queue) (tail : PromiseTail Publication) (pending facts bytes : Nat)
    {sent : List (κ × Nat × Nat)} (htidy : Tidy s.submitted { queue with tail, pending })
    (hpending : pending ≠ 0 → queue.pending ≠ 0)
    (hfacts : facts + queue.tail.load (fun _ => 1) = s.pendingFacts + tail.load fun _ => 1)
    (hbytes : bytes + queue.tail.load (·.bytes) = s.pendingBytes + tail.load (·.bytes))
    (hwithin : facts ≤ s.pendingFacts ∧ bytes ≤ s.pendingBytes)
    (hflight : ∀ (i : Nat) l, tail.links[i]? = some l → l.value.inFlight = true →
      (s.generations queue.generation).current = true ∨ s.Sending queue.generation)
    (hwaiting : ∀ (i : Nat) l, tail.links[i]? = some l → l.status = .waiting →
      queue.tail.links[i]? = some l)
    (hsent : sent = s.sent ∨ ∃ n, sent = s.sent ++ [(queue.key, n, queue.generation)] ∧
      n < s.submitted ∧ (∀ e ∈ s.sent, e.1 = queue.key → e.2.1 < n) ∧
      ∀ r queue', s.queues r = some queue' → queue'.key = queue.key →
        (s.generations queue'.generation).current = true →
          ∀ (i : Nat) l, (if r = q then tail else queue'.tail).links[i]? = some l →
            l.status = .waiting → n < l.value.item) :
    Sound capacity lane { s.setQueue q { queue with tail, pending } with
      pendingFacts := facts, pendingBytes := bytes, sent } := by
  obtain ⟨hlt, hgen, hlane⟩ := h.queue q queue hq
  have hcases : ∀ r queue', (s.setQueue q { queue with tail, pending }).queues r = some queue' →
      r = q ∧ queue' = { queue with tail, pending } ∨ r ≠ q ∧ s.queues r = some queue' := by
    intro r queue' hr
    rw [queues_setQueue] at hr
    split at hr
    · rename_i hrq
      cases hr
      exact .inl ⟨hrq, rfl⟩
    · rename_i hrq
      exact .inr ⟨hrq, hr⟩
  have hload : ∀ weight : Publication → Nat,
      (s.setQueue q { queue with tail, pending }).underway weight + queue.tail.load weight =
        s.underway weight + tail.load weight := fun weight => underway_setQueue hq hlt _ weight
  have hsending : ∀ g, (s.setQueue q { queue with tail, pending }).Sending g →
      s.Sending g ∨ (s.generations g).current = true := by
    rintro g ⟨r, queue', hr, rfl, i, l, hl, hflying⟩
    rcases hcases r queue' hr with ⟨-, rfl⟩ | ⟨-, hr⟩
    · exact (hflight i l hl hflying).symm
    · exact .inl ⟨r, queue', hr, rfl, i, l, hl, hflying⟩
  constructor
  · exact h.installed
  · exact h.current
  · exact h.fresh
  · intro g hg
    refine ⟨(h.closed g hg).1, fun hs => ?_⟩
    rcases hsending g hs with hs | hc
    · exact (h.closed g hg).2 hs
    · rw [(h.closed g hg).1] at hc
      cases hc
  · exact h.single
  · intro r queue' hr
    rcases hcases r queue' hr with ⟨rfl, rfl⟩ | ⟨-, hr⟩
    · exact ⟨hlt, hgen, hlane⟩
    · exact h.queue r queue' hr
  · intro g k r hget
    obtain ⟨queue', hr, hk, hg⟩ := h.place g k r hget
    by_cases hrq : r = q
    · subst hrq
      rw [hq] at hr
      cases hr
      exact ⟨_, Function.update_self .., hk, hg⟩
    · exact ⟨queue', (Function.update_of_ne hrq ..).trans hr, hk, hg⟩
  · intro r queue' hr hp
    rcases hcases r queue' hr with ⟨rfl, rfl⟩ | ⟨-, hr⟩
    · exact h.busy r queue hq (hpending hp)
    · exact h.busy r queue' hr hp
  · intro r queue' hr
    rcases hcases r queue' hr with ⟨rfl, rfl⟩ | ⟨-, hr⟩
    · exact htidy
    · exact h.tidy r queue' hr
  · have hone := hload fun _ => 1
    have hold := h.facts
    show facts = (s.setQueue q { queue with tail, pending }).underway fun _ => 1
    omega
  · have hone := hload (·.bytes)
    have hold := h.bytes
    show bytes = (s.setQueue q { queue with tail, pending }).underway (·.bytes)
    omega
  · exact ⟨Nat.le_trans hwithin.1 h.within.1, Nat.le_trans hwithin.2 h.within.2⟩
  · intro e he
    change e ∈ sent at he
    rcases hsent with rfl | ⟨n, rfl, hn, -⟩
    · exact h.past e he
    · rcases List.mem_append.mp he with he | he
      · exact h.past e he
      · rw [List.mem_singleton.mp he]
        exact hn
  · intro r queue' hr hc i l hl hw e he hkey
    change e ∈ sent at he
    have hahead : e ∈ s.sent → e.2.1 < l.value.item := by
      intro he
      rcases hcases r queue' hr with ⟨rfl, rfl⟩ | ⟨-, hr⟩
      · exact h.ahead r queue hq hc i l (hwaiting i l hl hw) hw e he hkey
      · exact h.ahead r queue' hr hc i l hl hw e he hkey
    rcases hsent with rfl | ⟨n, rfl, -, -, hlast⟩
    · exact hahead he
    · rcases List.mem_append.mp he with he | he
      · exact hahead he
      · rw [List.mem_singleton.mp he] at hkey ⊢
        rcases hcases r queue' hr with ⟨rfl, rfl⟩ | ⟨hrq, hr⟩
        · exact hlast r queue hq rfl hc i l (by rw [if_pos rfl]; exact hl) hw
        · exact hlast r queue' hr hkey.symm hc i l (by rw [if_neg hrq]; exact hl) hw
  · show sent.Pairwise _
    rcases hsent with rfl | ⟨n, rfl, -, hbefore, -⟩
    · exact h.order
    · exact pairwise_snoc h.order hbefore

omit [DecidableEq κ] in
theorem current_of_owned {g : Nat} (h : s.owned g = true) : (s.generations g).current = true := by
  unfold owned at h
  rw [Bool.and_eq_true] at h
  exact h.2

theorem Sound.turn (h : Sound capacity lane s) {q i : Nat} {t : SessionPublicationIngress κ}
    (ht : s.turn q i = some t) : Sound capacity lane t := by
  obtain ⟨queue, hq, ht⟩ := bind_some ht
  obtain ⟨link, hlink, ht⟩ := bind_some ht
  obtain ⟨⟨hwait, hfree⟩, ht⟩ := guard_some ht
  have htidy := h.tidy q queue hq
  have hstart : ∀ (f : Publication → Publication) (j : Nat) l,
      (queue.tail.start i f).links[j]? = some l → l.status = .waiting →
        queue.tail.links[j]? = some l ∧ j ≠ i := by
    intro f j l hl hw
    change (queue.tail.move i .waiting .running (by rintro ⟨⟩) f).links[j]? = some l at hl
    rcases PromiseTail.moved hl with ⟨hl, hne⟩ | ⟨rfl, l', -, -, rfl⟩
    · refine ⟨hl, fun hji => hne hji ⟨hw, ?_⟩⟩
      rw [hji, hlink] at hl
      cases hl
      exact hfree
    · cases hw
  split at ht
  · rename_i howned
    cases ht
    have hcurrent := current_of_owned howned
    have hone := queue.tail.load_start (f := fun p => { p with sent := true }) hlink hwait hfree
      (fun _ => 1) rfl
    have hbytes := queue.tail.load_start (f := fun p => { p with sent := true }) hlink hwait hfree
      Publication.bytes rfl
    refine h.edit hq _ _ _ _ (htidy.move (fun _ => rfl) (fun _ _ _ _ => rfl) (htidy.pending.trans hone.symm))
      id ?_ ?_ ⟨Nat.le_refl _, Nat.le_refl _⟩ (fun _ _ _ _ => .inl hcurrent)
      (fun j l hl hw => (hstart _ j l hl hw).1)
      (.inr ⟨link.value.item, rfl, htidy.items i link hlink,
        h.ahead q queue hq hcurrent i link hlink hwait, ?_⟩)
    · exact congrArg (s.pendingFacts + ·) hone.symm
    · exact congrArg (s.pendingBytes + ·) hbytes.symm
    intro r queue' hr hkey hcurrent' j l hl hw
    split at hl
    · -- The queue itself: what waits stands behind the publication that runs.
      obtain ⟨hl, hne⟩ := hstart _ j l hl hw
      rcases Nat.lt_or_gt_of_ne hne with hji | hij
      · have hsettled := PromiseTail.before_of_free hji hl hlink hfree
        rw [hw] at hsettled
        cases hsettled
      · exact htidy.increasing i j link l hij hlink hl
    · -- Another queue of the session has no place in the map, so that nothing waits in it.
      rename_i hrq
      have hopen : ∀ g, (s.generations g).current = true → (s.generations g).closed ≠ true := by
        intro g hg hc
        rw [(h.closed g hc).1] at hg
        cases hg
      have hsame := h.same_generation hr hq hkey (hopen _ hcurrent') (hopen _ hcurrent)
      have hplace := h.busy q queue hq (htidy.pending ▸ PromiseTail.load_pos hlink (by
        rw [hwait]
        rintro ⟨⟩))
      have hplace' := h.busy r queue' hr ((h.tidy r queue' hr).pending ▸ PromiseTail.load_pos hl (by
        rw [hw]
        rintro ⟨⟩))
      rw [hsame, hkey, hplace] at hplace'
      cases hplace'
      exact absurd rfl hrq
  · cases ht
    have hone := queue.tail.load_start (f := fun p => { p with outcome := some .notOwner }) hlink hwait hfree
      (fun _ => 1) rfl
    have hbytes := queue.tail.load_start (f := fun p => { p with outcome := some .notOwner }) hlink hwait hfree
      Publication.bytes rfl
    refine h.edit hq _ _ _ _ (htidy.move (fun _ => rfl) (fun _ _ _ => (by rintro ⟨⟩)) (htidy.pending.trans hone.symm))
      id ?_ ?_ ⟨Nat.le_refl _, Nat.le_refl _⟩ ?_ (fun j l hl hw => (hstart _ j l hl hw).1) (.inl rfl)
    · exact congrArg (s.pendingFacts + ·) hone.symm
    · exact congrArg (s.pendingBytes + ·) hbytes.symm
    · intro j l hl hflying
      change (queue.tail.move i .waiting .running (by rintro ⟨⟩) _).links[j]? = some l at hl
      rcases PromiseTail.moved hl with ⟨hl, -⟩ | ⟨rfl, l', -, -, rfl⟩
      · exact .inr ⟨q, queue, hq, rfl, j, l, hl, hflying⟩
      · unfold Publication.inFlight at hflying
        rw [Option.isNone_some, Bool.and_false] at hflying
        cases hflying

theorem Sound.answer (h : Sound capacity lane s) {q i : Nat} {reply : AppendAnswer}
    {t : SessionPublicationIngress κ} (ht : s.answer q i reply = some t) : Sound capacity lane t := by
  obtain ⟨queue, hq, ht⟩ := bind_some ht
  obtain ⟨link, hlink, ht⟩ := bind_some ht
  obtain ⟨⟨hrun, -⟩, ht⟩ := guard_some ht
  cases ht
  have htidy := h.tidy q queue hq
  have hone := queue.tail.load_edit hlink hrun
    (f := fun p => { p with outcome := some (outcomeOf p.factId reply) }) (fun _ => 1) rfl
  have hbytes := queue.tail.load_edit hlink hrun
    (f := fun p => { p with outcome := some (outcomeOf p.factId reply) }) Publication.bytes rfl
  refine h.edit hq _ _ _ _ (htidy.move (fun _ => rfl) (fun _ _ _ => nofun) (htidy.pending.trans hone.symm))
    id ?_ ?_ ⟨Nat.le_refl _, Nat.le_refl _⟩ ?_ ?_ (.inl rfl)
  · exact congrArg (s.pendingFacts + ·) hone.symm
  · exact congrArg (s.pendingBytes + ·) hbytes.symm
  · intro j l hl hflying
    rcases PromiseTail.edited hl with hl | ⟨rfl, l', -, -, rfl⟩
    · exact .inr ⟨q, queue, hq, rfl, j, l, hl, hflying⟩
    · unfold Publication.inFlight at hflying
      rw [Option.isNone_some, Bool.and_false] at hflying
      cases hflying
  · intro j l hl hw
    rcases PromiseTail.edited hl with hl | ⟨rfl, l', -, -, rfl⟩
    · exact hl
    · cases hw

theorem Sound.remap (h : Sound capacity lane s) {t : SessionPublicationIngress κ}
    (hpartitions : t.partitions = s.partitions) (hnext : t.nextGeneration = s.nextGeneration)
    (hfacts : t.pendingFacts = s.pendingFacts) (hbytes : t.pendingBytes = s.pendingBytes)
    (hsubmitted : t.submitted = s.submitted) (hsent : t.sent = s.sent)
    (hgen : ∀ g, ∃ queues, t.generations g = { s.generations g with queues })
    (hfresh : ∀ g, s.nextGeneration ≤ g → t.generations g = s.generations g)
    (hunderway : ∀ weight, t.underway weight = s.underway weight)
    (hnew : ∀ q queue, t.queues q = some queue → s.queues q = some queue ∨
      queue.generation < s.nextGeneration ∧
        (s.generations queue.generation).partition = lane queue.key ∧
        queue = { key := queue.key, generation := queue.generation })
    (hqueue : ∀ q queue, t.queues q = some queue → q < t.nextQueue)
    (hplace : ∀ g k q, (t.generations g).queues.get k = some q →
      ∃ queue, t.queues q = some queue ∧ queue.key = k ∧ queue.generation = g)
    (hbusy : ∀ q queue, t.queues q = some queue → queue.pending ≠ 0 →
      (t.generations queue.generation).queues.get queue.key = some q) : Sound capacity lane t := by
  have hfields : ∀ g, (t.generations g).partition = (s.generations g).partition ∧
      (t.generations g).current = (s.generations g).current ∧
      (t.generations g).closed = (s.generations g).closed := by
    intro g
    obtain ⟨queues, heq⟩ := hgen g
    rw [heq]
    exact ⟨rfl, rfl, rfl⟩
  have hempty : ∀ q queue (i : Nat) l, t.queues q = some queue →
      queue.tail.links[i]? = some l → s.queues q = some queue := by
    intro q queue i l hq hl
    refine (hnew q queue hq).resolve_right ?_
    rintro ⟨-, -, heq⟩
    rw [heq] at hl
    cases hl
  constructor
  · intro p g hp
    rw [hpartitions] at hp
    rw [hnext, (hfields g).1]
    exact h.installed p g hp
  · intro g hg
    rw [(hfields g).2.1] at hg
    rw [hnext, hpartitions, (hfields g).1]
    exact h.current g hg
  · intro g hg
    rw [hnext] at hg
    rw [hfresh g hg]
    exact h.fresh g hg
  · intro g hg
    rw [(hfields g).2.2] at hg
    rw [(hfields g).2.1]
    refine ⟨(h.closed g hg).1, ?_⟩
    rintro ⟨q, queue, hq, hgen, i, l, hl, hflying⟩
    exact (h.closed g hg).2 ⟨q, queue, hempty q queue i l hq hl, hgen, i, l, hl, hflying⟩
  · intro g g' hg hg' hne hpart
    rw [hnext] at hg hg'
    rw [(hfields g).1, (hfields g').1] at hpart
    rw [(hfields g).2.2, (hfields g').2.2]
    exact h.single g g' hg hg' hne hpart
  · intro q queue hq
    rw [hnext, (hfields _).1]
    refine ⟨hqueue q queue hq, ?_⟩
    rcases hnew q queue hq with hold | ⟨hg, hlane, -⟩
    · exact (h.queue q queue hold).2
    · exact ⟨hg, hlane⟩
  · exact hplace
  · exact hbusy
  · intro q queue hq
    rw [hsubmitted]
    rcases hnew q queue hq with hold | ⟨-, -, heq⟩
    · exact h.tidy q queue hold
    · rw [heq]
      exact .empty queue.key queue.generation
  · rw [hfacts, hunderway]
    exact h.facts
  · rw [hbytes, hunderway]
    exact h.bytes
  · rw [hfacts, hbytes]
    exact h.within
  · rw [hsent, hsubmitted]
    exact h.past
  · intro q queue hq hc i l hl
    rw [(hfields _).2.1] at hc
    rw [hsent]
    exact h.ahead q queue (hempty q queue i l hq hl) hc i l hl
  · rw [hsent]
    exact h.order

theorem Sound.forget (h : Sound capacity lane s) {q : Nat} {queue : SessionQueue κ}
    (hq : s.queues q = some queue) (hpending : queue.pending = 0)
    (hplace : (s.generations queue.generation).queues.get queue.key = some q) :
    Sound capacity lane (s.setGeneration queue.generation
      { s.generations queue.generation with
        queues := (s.generations queue.generation).queues.delete queue.key }) := by
  refine h.remap rfl rfl rfl rfl rfl rfl (fun g => ?_) (fun g hg => ?_) (fun _ => rfl)
    (fun _ _ hr => .inl hr) (fun r queue' hr => (h.queue r queue' hr).1) ?_ ?_
  · rw [generations_setGeneration]
    split
    · rename_i hg
      exact ⟨_, by rw [hg]⟩
    · exact ⟨_, rfl⟩
  · rw [generations_setGeneration, if_neg]
    rintro rfl
    exact absurd (h.queue q queue hq).2.1 (Nat.not_lt.mpr hg)
  · intro g k r hget
    rw [generations_setGeneration] at hget
    split at hget
    · rename_i hg
      subst hg
      exact h.place _ k r (InsertionMap.get_delete_some hget)
    · exact h.place g k r hget
  · intro r queue' hr hp
    have hget := h.busy r queue' hr hp
    rw [generations_setGeneration]
    split
    · rename_i hg
      show ((s.generations queue.generation).queues.delete queue.key).get _ = _
      rw [InsertionMap.get_delete, if_neg]
      · rw [← hg]
        exact hget
      · intro hk
        rw [hg, hk, hplace] at hget
        cases hget
        have hsame : queue' = queue := Option.some.inj (hr.symm.trans hq)
        rw [hsame] at hp
        exact hp hpending
    · exact hget

theorem Sound.settle (h : Sound capacity lane s) {q i : Nat} {t : SessionPublicationIngress κ}
    (ht : s.settle q i = some t) : Sound capacity lane t := by
  obtain ⟨queue, hq, ht⟩ := bind_some ht
  obtain ⟨link, hlink, ht⟩ := bind_some ht
  obtain ⟨⟨hrun, hended⟩, ht⟩ := guard_some ht
  have htidy := h.tidy q queue hq
  have hone := queue.tail.load_settle id hlink hrun fun _ => 1
  have hbytes := queue.tail.load_settle id hlink hrun Publication.bytes
  have hlast := htidy.pending
  have hmoved : ∀ (j : Nat) l, (queue.tail.settle i id).links[j]? = some l →
      queue.tail.links[j]? = some l ∨ l.status = .settled := by
    intro j l hl
    rcases PromiseTail.settled hl with ⟨hl, -⟩ | ⟨-, l', -, -, rfl⟩
    · exact .inl hl
    · exact .inr rfl
  have hsound := h.edit hq (queue.tail.settle i id) (queue.pending - 1) (s.pendingFacts - 1)
    (s.pendingBytes - link.value.bytes)
    (htidy.move (fun _ => rfl) (fun l hl _ => ?_) ?_) ?_ ?_ ?_ ⟨Nat.sub_le .., Nat.sub_le ..⟩ ?_ ?_
    (.inl rfl)
  · dsimp only at ht
    split at ht
    · rename_i hdone
      cases ht
      have hnow : Function.update s.queues q (some { queue with
          tail := queue.tail.settle i id, pending := queue.pending - 1 }) q =
            some { queue with tail := queue.tail.settle i id, pending := queue.pending - 1 } :=
        Function.update_self ..
      have hforget := hsound.forget hnow hdone.1 hdone.2
      exact hforget
    · cases ht
      exact hsound
  · rw [hlink] at hl
    cases hl
    exact hended
  · change queue.pending - 1 = (queue.tail.settle i id).load fun _ => 1
    omega
  · exact fun hne hzero => hne (by rw [hzero])
  · have hle := load_le_underway hq (h.queue q queue hq).1 fun _ => 1
    have hfacts := h.facts
    omega
  · have hle := load_le_underway hq (h.queue q queue hq).1 Publication.bytes
    have hsum := h.bytes
    change s.pendingBytes - link.value.bytes + queue.tail.load Publication.bytes =
      s.pendingBytes + (queue.tail.settle i id).load Publication.bytes
    change s.pendingBytes = s.underway Publication.bytes at hsum
    omega
  · intro j l hl hflying
    rcases hmoved j l hl with hl | hs
    · exact .inr ⟨q, queue, hq, rfl, j, l, hl, hflying⟩
    · rcases PromiseTail.settled hl with ⟨hl, -⟩ | ⟨rfl, l', hl', -, rfl⟩
      · exact .inr ⟨q, queue, hq, rfl, j, l, hl, hflying⟩
      · exact .inr ⟨q, queue, hq, rfl, j, l', hl', hflying⟩
  · intro j l hl hw
    rcases hmoved j l hl with hl | hs
    · exact hl
    · rw [hw] at hs
      cases hs

theorem Sound.open (h : Sound capacity lane s) {g : Nat} {key : κ} (hg : g < s.nextGeneration)
    (hlane : (s.generations g).partition = lane key)
    (hnone : (s.generations g).queues.get key = none) :
    Sound capacity lane { (s.setGeneration g { s.generations g with
        queues := (s.generations g).queues.set key s.nextQueue }).setQueue s.nextQueue
          { key, generation := g } with nextQueue := s.nextQueue + 1 } := by
  have hcases : ∀ q queue, Function.update s.queues s.nextQueue
      (some { key, generation := g }) q = some queue →
        s.queues q = some queue ∨ q = s.nextQueue ∧ queue = { key, generation := g } := by
    intro q queue hq
    by_cases hqn : q = s.nextQueue
    · rw [hqn, Function.update_self] at hq
      cases hq
      exact .inr ⟨hqn, rfl⟩
    · rw [Function.update_of_ne hqn] at hq
      exact .inl hq
  have hkeep : ∀ q queue, s.queues q = some queue → Function.update s.queues s.nextQueue
      (some { key, generation := g }) q = some queue := by
    intro q queue hq
    rw [Function.update_of_ne (Nat.ne_of_lt (h.queue q queue hq).1)]
    exact hq
  refine h.remap rfl rfl rfl rfl rfl rfl (fun r => ?_) (fun r hr => ?_) ?_ ?_ ?_ ?_ ?_
  · show ∃ queues, (s.setGeneration g _).generations r = _
    rw [generations_setGeneration]
    split
    · rename_i hr
      exact ⟨_, by rw [hr]⟩
    · exact ⟨_, rfl⟩
  · show (s.setGeneration g _).generations r = _
    rw [generations_setGeneration, if_neg]
    rintro rfl
    exact absurd hg (Nat.not_lt.mpr hr)
  · intro weight
    have hsum := underway_newQueue (s := s) (t := { (s.setGeneration g { s.generations g with
        queues := (s.generations g).queues.set key s.nextQueue }).setQueue s.nextQueue
          { key, generation := g } with nextQueue := s.nextQueue + 1 }) rfl rfl weight
    exact hsum
  · intro q queue hq
    rcases hcases q queue hq with hq | ⟨-, rfl⟩
    · exact .inl hq
    · exact .inr ⟨hg, hlane, rfl⟩
  · intro q queue hq
    rcases hcases q queue hq with hq | ⟨rfl, -⟩
    · exact Nat.lt_succ_of_lt (h.queue q queue hq).1
    · exact Nat.lt_succ_self _
  · intro r k q hget
    change ((s.setGeneration g _).generations r).queues.get k = some q at hget
    rw [generations_setGeneration] at hget
    split at hget
    · rename_i hr
      subst hr
      change ((s.generations r).queues.set key s.nextQueue).get k = some q at hget
      rw [InsertionMap.get_set] at hget
      split at hget
      · rename_i hk
        cases hget
        exact ⟨_, Function.update_self .., hk.symm, rfl⟩
      · obtain ⟨queue, hq, hk, hgen⟩ := h.place r k q hget
        exact ⟨queue, hkeep q queue hq, hk, hgen⟩
    · obtain ⟨queue, hq, hk, hgen⟩ := h.place r k q hget
      exact ⟨queue, hkeep q queue hq, hk, hgen⟩
  · intro q queue hq hp
    rcases hcases q queue hq with hq | ⟨-, rfl⟩
    · have hget := h.busy q queue hq hp
      show ((s.setGeneration g _).generations queue.generation).queues.get queue.key = some q
      rw [generations_setGeneration]
      split
      · rename_i hr
        show ((s.generations g).queues.set key s.nextQueue).get queue.key = some q
        rw [hr] at hget
        rw [InsertionMap.get_set, if_neg]
        · exact hget
        · intro hk
          rw [hk, hnone] at hget
          cases hget
      · exact hget
    · exact absurd rfl hp

theorem Sound.submit (h : Sound capacity lane s) {q : Nat} {queue : SessionQueue κ}
    (hq : s.queues q = some queue)
    (hplace : (s.generations queue.generation).queues.get queue.key = some q) (factId : Nat)
    {bytes : Nat} (hfacts : s.pendingFacts < capacity.maximumPendingFacts)
    (hbytes : s.pendingBytes + bytes ≤ capacity.maximumPendingBytes) :
    Sound capacity lane { s.setQueue q { queue with
        tail := queue.tail.push { item := s.submitted, factId, bytes }
        pending := queue.pending + 1 } with
      pendingFacts := s.pendingFacts + 1
      pendingBytes := s.pendingBytes + bytes
      submitted := s.submitted + 1 } := by
  obtain ⟨hlt, hgen, hlane⟩ := h.queue q queue hq
  have hcases : ∀ r queue', (s.setQueue q { queue with
        tail := queue.tail.push { item := s.submitted, factId, bytes }
        pending := queue.pending + 1 }).queues r = some queue' →
      r = q ∧ queue' = { queue with
        tail := queue.tail.push { item := s.submitted, factId, bytes }
        pending := queue.pending + 1 } ∨ s.queues r = some queue' := by
    intro r queue' hr
    rw [queues_setQueue] at hr
    split at hr
    · rename_i hrq
      cases hr
      exact .inl ⟨hrq, rfl⟩
    · exact .inr hr
  have hload : ∀ weight : Publication → Nat,
      (s.setQueue q { queue with
        tail := queue.tail.push { item := s.submitted, factId, bytes }
        pending := queue.pending + 1 }).underway weight =
          s.underway weight + weight { item := s.submitted, factId, bytes } := by
    intro weight
    have hset := underway_setQueue hq hlt { queue with
      tail := queue.tail.push { item := s.submitted, factId, bytes }
      pending := queue.pending + 1 } weight
    rw [PromiseTail.load_push] at hset
    omega
  constructor
  · exact h.installed
  · exact h.current
  · exact h.fresh
  · intro g hg
    refine ⟨(h.closed g hg).1, ?_⟩
    rintro ⟨r, queue', hr, rfl, i, l, hl, hflying⟩
    refine (h.closed _ hg).2 ?_
    rcases hcases r queue' hr with ⟨rfl, rfl⟩ | hr
    · rcases PromiseTail.pushed hl with hl | ⟨-, rfl⟩
      · exact ⟨r, queue, hq, rfl, i, l, hl, hflying⟩
      · cases hflying
    · exact ⟨r, queue', hr, rfl, i, l, hl, hflying⟩
  · exact h.single
  · intro r queue' hr
    rcases hcases r queue' hr with ⟨rfl, rfl⟩ | hr
    · exact ⟨hlt, hgen, hlane⟩
    · exact h.queue r queue' hr
  · intro g k r hget
    obtain ⟨queue', hr, hk, hg⟩ := h.place g k r hget
    by_cases hrq : r = q
    · subst hrq
      rw [hq] at hr
      cases hr
      exact ⟨_, Function.update_self .., hk, hg⟩
    · exact ⟨queue', (Function.update_of_ne hrq ..).trans hr, hk, hg⟩
  · intro r queue' hr hp
    rcases hcases r queue' hr with ⟨rfl, rfl⟩ | hr
    · exact hplace
    · exact h.busy r queue' hr hp
  · intro r queue' hr
    rcases hcases r queue' hr with ⟨rfl, rfl⟩ | hr
    · exact (h.tidy r queue hq).push factId bytes
    · exact (h.tidy r queue' hr).mono (Nat.le_succ _)
  · refine Eq.trans ?_ (hload fun _ => 1).symm
    exact congrArg (· + 1) h.facts
  · refine Eq.trans ?_ (hload (·.bytes)).symm
    exact congrArg (· + bytes) h.bytes
  · exact ⟨hfacts, hbytes⟩
  · exact fun e he => Nat.lt_succ_of_lt (h.past e he)
  · intro r queue' hr hc i l hl hw e he hkey
    rcases hcases r queue' hr with ⟨rfl, rfl⟩ | hr
    · rcases PromiseTail.pushed hl with hl | ⟨-, rfl⟩
      · exact h.ahead r queue hq hc i l hl hw e he hkey
      · exact h.past e he
    · exact h.ahead r queue' hr hc i l hl hw e he hkey
  · exact h.order

theorem Sound.control (h : Sound capacity lane s) {owner : Nat} {key : κ} {factId bytes : Nat}
    {t : SessionPublicationIngress κ} (hlane : (s.generations owner).partition = lane key)
    (ht : s.control capacity owner key factId bytes = some t) : Sound capacity lane t := by
  obtain ⟨howned, ht⟩ := guard_some ht
  obtain ⟨-, ht⟩ := guard_some ht
  obtain ⟨⟨hfacts, hbytes⟩, ht⟩ := guard_some ht
  have howner := (h.current owner (current_of_owned howned)).1
  unfold queueOf at ht
  cases hget : (s.generations owner).queues.get key with
  | some q =>
    rw [hget] at ht
    obtain ⟨queue, hq, rfl, rfl⟩ := h.place owner key q hget
    dsimp only at ht
    rw [hq, Option.getD_some] at ht
    cases ht
    exact h.submit hq hget factId hfacts hbytes
  | none =>
    rw [hget] at ht
    have hopen := h.open howner hlane hget
    have hplace : ((s.setGeneration owner { s.generations owner with
        queues := (s.generations owner).queues.set key s.nextQueue }).generations owner).queues.get
          key = some s.nextQueue := by
      rw [generations_setGeneration, if_pos rfl]
      exact InsertionMap.get_set_self ..
    have hsubmit := hopen.submit (Function.update_self ..) hplace factId hfacts hbytes
    cases ht
    unfold setQueue at hsubmit
    dsimp only at hsubmit
    rw [Function.update_idem] at hsubmit
    exact hsubmit

theorem Sound.act (h : Sound capacity lane s) {a : IngressAction κ} {t : SessionPublicationIngress κ}
    (hp : Promised lane s a) (ht : act capacity s a = some t) : Sound capacity lane t := by
  cases a with
  | installPartition p => exact h.install hp ht
  | revoke p =>
    cases ht
    exact h.revoke p
  | closed g =>
    cases ht
    exact h.endGeneration hp
  | control owner key factId bytes => exact h.control hp ht
  | turn q i => exact h.turn ht
  | answer q i reply => exact h.answer ht
  | settle q i => exact h.settle ht
  | close =>
    cases ht
    exact h.close
  | clear =>
    cases ht
    exact h.clear hp

/-- What is promised of the publications between two actions. -/
structure Ordered (capacity : ProducerCapacity) (s : SessionPublicationIngress κ) : Prop where
  /-- The counters are the sums over the publications that have not ended. -/
  facts : s.pendingFacts = s.underway fun _ => 1
  bytes : s.pendingBytes = s.underway (·.bytes)
  within : s.pendingFacts ≤ capacity.maximumPendingFacts ∧
    s.pendingBytes ≤ capacity.maximumPendingBytes
  /-- The transports have at most one publication of a session. -/
  one : ∀ q q' queue queue' (i j : Nat) l m, s.queues q = some queue → s.queues q' = some queue' →
    queue.key = queue'.key → queue.tail.links[i]? = some l → queue'.tail.links[j]? = some m →
    l.value.inFlight = true → m.value.inFlight = true → q = q' ∧ i = j
  /-- The publications of a session are handed over in the order in which they were accepted. -/
  order : s.sent.Pairwise fun a b => a.1 = b.1 → a.2.1 < b.2.1
  /-- What has not ended can go on. -/
  progress : s.pendingFacts ≠ 0 → ∃ q i, (s.turn q i).isSome ∨
    (∃ reply, (s.answer q i reply).isSome) ∨ (s.settle q i).isSome

theorem Sound.one (h : Sound capacity lane s) {q q' : Nat} {queue queue' : SessionQueue κ} {i j : Nat}
    {l m : Link Publication} (hq : s.queues q = some queue) (hq' : s.queues q' = some queue')
    (hkey : queue.key = queue'.key) (hl : queue.tail.links[i]? = some l)
    (hm : queue'.tail.links[j]? = some m) (hfly : l.value.inFlight = true)
    (hfly' : m.value.inFlight = true) : q = q' ∧ i = j := by
  have hopen : ∀ r queue (k : Nat) l, s.queues r = some queue → queue.tail.links[k]? = some l →
      l.value.inFlight = true → (s.generations queue.generation).closed ≠ true := by
    intro r queue k l hr hl hfly hc
    exact (h.closed _ hc).2 ⟨r, queue, hr, rfl, k, l, hl, hfly⟩
  have hrun := ((h.tidy q queue hq).stages i l hl).running hfly
  have hrun' := ((h.tidy q' queue' hq').stages j m hm).running hfly'
  have hsame := h.same_generation hq hq' hkey (hopen q queue i l hq hl hfly)
    (hopen q' queue' j m hq' hm hfly')
  have hplace := h.busy q queue hq ((h.tidy q queue hq).pending ▸ PromiseTail.load_pos hl (by
    rw [hrun]
    rintro ⟨⟩))
  have hplace' := h.busy q' queue' hq' ((h.tidy q' queue' hq').pending ▸ PromiseTail.load_pos hm (by
    rw [hrun']
    rintro ⟨⟩))
  rw [hsame, hkey, hplace'] at hplace
  cases hplace
  rw [hq] at hq'
  cases hq'
  exact ⟨rfl, PromiseTail.running_unique _ hl hm hrun hrun'⟩

theorem Sound.progress (h : Sound capacity lane s) (hpending : s.pendingFacts ≠ 0) :
    ∃ q i, (s.turn q i).isSome ∨ (∃ reply, (s.answer q i reply).isSome) ∨ (s.settle q i).isSome := by
  rw [h.facts] at hpending
  obtain ⟨q, hmem, hload⟩ := Finset.exists_ne_zero_of_sum_ne_zero hpending
  cases hq : s.queues q with
  | none =>
    rw [hq] at hload
    exact absurd rfl hload
  | some queue =>
    rw [hq, Option.elim_some] at hload
    obtain ⟨i, l, hl, hs, hfree⟩ := PromiseTail.exists_next hload
    have hstage := (h.tidy q queue hq).stages i l hl
    refine ⟨q, i, ?_⟩
    cases hstatus : l.status with
    | waiting =>
      left
      unfold SessionPublicationIngress.turn
      rw [hq, Option.bind_eq_bind, Option.bind_some, hl, Option.bind_eq_bind, Option.bind_some, guard,
        if_pos ⟨hstatus, hfree⟩]
      dsimp only [Option.bind_eq_bind, Option.pure_def, Option.bind_some]
      split <;> rfl
    | running =>
      right
      unfold Staged at hstage
      rw [hstatus] at hstage
      cases hout : l.value.outcome with
      | none =>
        left
        have hfly : l.value.inFlight = true := by
          unfold Publication.inFlight
          rw [hstage hout, hout]
          rfl
        refine ⟨.rejected, ?_⟩
        unfold SessionPublicationIngress.answer
        rw [hq, Option.bind_eq_bind, Option.bind_some, hl, Option.bind_eq_bind, Option.bind_some,
          guard, if_pos ⟨hstatus, hfly⟩]
        rfl
      | some outcome =>
        right
        have hended : l.value.outcome.isSome = true := by
          rw [hout]
          rfl
        unfold SessionPublicationIngress.settle
        rw [hq, Option.bind_eq_bind, Option.bind_some, hl, Option.bind_eq_bind, Option.bind_some,
          guard, if_pos ⟨hstatus, hended⟩]
        dsimp only [Option.bind_eq_bind, Option.pure_def, Option.bind_some]
        split <;> rfl
    | settled => exact absurd hstatus hs

theorem Sound.ordered (h : Sound capacity lane s) : Ordered capacity s where
  facts := h.facts
  bytes := h.bytes
  within := h.within
  one _ _ _ _ _ _ _ _ hq hq' hkey hl hm hfly hfly' := h.one hq hq' hkey hl hm hfly hfly'
  order := h.order
  progress := h.progress

theorem queueOf_keeps (s : SessionPublicationIngress κ) (g : Nat) (key : κ) :
    (s.queueOf g key).1.nextGeneration = s.nextGeneration ∧
      (s.queueOf g key).1.sent = s.sent ∧
      ∀ r, ((s.queueOf g key).1.generations r).current = (s.generations r).current := by
  unfold queueOf
  split
  · exact ⟨rfl, rfl, fun _ => rfl⟩
  · refine ⟨rfl, rfl, fun r => ?_⟩
    show ((s.setGeneration g _).generations r).current = _
    rw [generations_setGeneration]
    split
    · rename_i hr
      rw [hr]
    · rfl

theorem act_sent {a : IngressAction κ} {t : SessionPublicationIngress κ}
    (ht : act capacity s a = some t) :
    t.sent = s.sent ∨ ∃ key item g, t.sent = s.sent ++ [(key, item, g)] ∧ s.owned g = true := by
  cases a with
  | installPartition p =>
    obtain ⟨-, ht⟩ := guard_some ht
    cases ht
    exact .inl rfl
  | revoke p =>
    cases ht
    unfold SessionPublicationIngress.revoke
    split <;> exact .inl rfl
  | closed g =>
    cases ht
    exact .inl rfl
  | control owner key factId bytes =>
    obtain ⟨-, ht⟩ := guard_some ht
    obtain ⟨-, ht⟩ := guard_some ht
    obtain ⟨-, ht⟩ := guard_some ht
    have hkeeps := (queueOf_keeps s owner key).2.1
    rcases hof : s.queueOf owner key with ⟨u, q, queue⟩
    rw [hof] at ht hkeeps
    cases ht
    exact .inl hkeeps
  | turn q i =>
    obtain ⟨queue, -, ht⟩ := bind_some ht
    obtain ⟨link, -, ht⟩ := bind_some ht
    obtain ⟨-, ht⟩ := guard_some ht
    split at ht
    · rename_i howned
      cases ht
      exact .inr ⟨_, _, _, rfl, howned⟩
    · cases ht
      exact .inl rfl
  | answer q i reply =>
    obtain ⟨queue, -, ht⟩ := bind_some ht
    obtain ⟨link, -, ht⟩ := bind_some ht
    obtain ⟨-, ht⟩ := guard_some ht
    cases ht
    exact .inl rfl
  | settle q i =>
    obtain ⟨queue, -, ht⟩ := bind_some ht
    obtain ⟨link, -, ht⟩ := bind_some ht
    obtain ⟨-, ht⟩ := guard_some ht
    dsimp only at ht
    split at ht <;> cases ht <;> exact .inl rfl
  | close =>
    cases ht
    exact .inl rfl
  | clear =>
    cases ht
    exact .inl rfl

theorem act_current {a : IngressAction κ} {t : SessionPublicationIngress κ}
    (ht : act capacity s a = some t) {g : Nat} (hg : g < s.nextGeneration)
    (hc : (s.generations g).current = false) :
    g < t.nextGeneration ∧ (t.generations g).current = false := by
  have hset : ∀ r (generation : Generation κ),
      (generation.current = true → (s.generations r).current = true) →
      ((s.setGeneration r generation).generations g).current = false := by
    intro r generation hr
    rw [generations_setGeneration]
    split
    · rename_i hgr
      rw [hgr] at hc
      rw [← hc]
      exact Bool.eq_iff_iff.mpr ⟨hr, fun ht => Bool.noConfusion (hc.symm.trans ht)⟩
    · exact hc
  cases a with
  | installPartition p =>
    obtain ⟨-, ht⟩ := guard_some ht
    cases ht
    refine ⟨Nat.lt_succ_of_lt hg, ?_⟩
    show ((s.setGeneration s.nextGeneration _).generations g).current = false
    rw [generations_setGeneration, if_neg (Nat.ne_of_lt hg)]
    exact hc
  | revoke p =>
    cases ht
    unfold SessionPublicationIngress.revoke
    split
    · exact ⟨hg, hc⟩
    · exact ⟨hg, hset _ _ nofun⟩
  | closed r =>
    cases ht
    exact ⟨hg, hset _ _ id⟩
  | control owner key factId bytes =>
    obtain ⟨-, ht⟩ := guard_some ht
    obtain ⟨-, ht⟩ := guard_some ht
    obtain ⟨-, ht⟩ := guard_some ht
    obtain ⟨hnext, -, hkeeps⟩ := queueOf_keeps s owner key
    rcases hof : s.queueOf owner key with ⟨u, q, queue⟩
    rw [hof] at ht hnext hkeeps
    cases ht
    exact ⟨hnext ▸ hg, (hkeeps g).trans hc⟩
  | turn q i =>
    obtain ⟨queue, -, ht⟩ := bind_some ht
    obtain ⟨link, -, ht⟩ := bind_some ht
    obtain ⟨-, ht⟩ := guard_some ht
    split at ht <;> cases ht <;> exact ⟨hg, hc⟩
  | answer q i reply =>
    obtain ⟨queue, -, ht⟩ := bind_some ht
    obtain ⟨link, -, ht⟩ := bind_some ht
    obtain ⟨-, ht⟩ := guard_some ht
    cases ht
    exact ⟨hg, hc⟩
  | settle q i =>
    obtain ⟨queue, -, ht⟩ := bind_some ht
    obtain ⟨link, -, ht⟩ := bind_some ht
    obtain ⟨-, ht⟩ := guard_some ht
    dsimp only at ht
    split at ht
    · cases ht
      exact ⟨hg, hset _ _ id⟩
    · cases ht
      exact ⟨hg, hc⟩
  | close =>
    cases ht
    refine ⟨hg, ?_⟩
    dsimp only
    rw [hc, Bool.false_and]
  | clear =>
    cases ht
    exact ⟨hg, hc⟩

theorem revoked_silent {t : SessionPublicationIngress κ}
    (hst : Steps (ingress capacity lane) s t) {g : Nat} (hg : g < s.nextGeneration)
    (hc : (s.generations g).current = false) :
    (g < t.nextGeneration ∧ (t.generations g).current = false) ∧
      t.sent.filter (·.2.2 = g) = s.sent.filter (·.2.2 = g) := by
  induction hst with
  | refl => exact ⟨⟨hg, hc⟩, rfl⟩
  | snoc _ hstep ih =>
    obtain ⟨⟨hlt, hcurrent⟩, hsent⟩ := ih
    refine ⟨act_current hstep.2 hlt hcurrent, ?_⟩
    rw [← hsent]
    rcases act_sent hstep.2 with heq | ⟨key, item, r, heq, howned⟩
    · rw [heq]
    · have hne : r ≠ g := by
        rintro rfl
        have htrue := current_of_owned howned
        rw [hcurrent] at htrue
        cases htrue
      rw [heq, List.filter_append, List.filter_singleton, decide_eq_false hne]
      exact List.append_nil _

end Changes

open SessionPublicationIngress in
/-- Submissions, answers, failures and revocations in any order: the budget is exact, the
publications of a session go out one at a time in the order of their submission, each by the owner
of its partition, and after a revocation nothing more goes out. -/
theorem publications_ordered [DecidableEq κ] {capacity : ProducerCapacity} {lane : κ → Nat}
    {actions : List (IngressAction κ)} {s : SessionPublicationIngress κ}
    (h : Reach (ingress capacity lane) actions s) :
    Ordered capacity s ∧
      (∀ a t, act capacity s a = some t → t.sent = s.sent ∨
        ∃ key item g, t.sent = s.sent ++ [(key, item, g)] ∧ s.owned g = true) ∧
      ∀ g < s.nextGeneration, (s.generations g).current = false →
        ∀ t, Steps (ingress capacity lane) s t →
          t.sent.filter (·.2.2 = g) = s.sent.filter (·.2.2 = g) := by
  refine ⟨?_, fun a t ht => act_sent ht, fun g hg hc t hst => (revoked_silent hst hg hc).2⟩
  have hsound : Sound capacity lane s := h.invariant (Sound capacity lane) ?_ ?_
  · exact hsound.ordered
  · rintro s rfl
    exact .initial
  · exact fun s a t hs hst => hs.act hst.1 hst.2

namespace Example

def capacity : ProducerCapacity := { maximumPendingFacts := 4, maximumPendingBytes := 100 }

def actions : List (IngressAction Nat) :=
  [.installPartition 0, .control 0 7 20 10, .control 0 7 21 10, .turn 0 0, .revoke 0,
    .answer 0 0 (.receipt 20 true), .settle 0 0, .turn 0 1]

/-- The state after the first `n` actions. -/
def state (n : Nat) : SessionPublicationIngress Nat :=
  ((actions.take n).foldlM (act capacity) initial).getD initial

theorem state_reach : Reach (ingress capacity fun _ => 0) actions (state 8) := by
  have hstart : Reach (ingress capacity fun _ => 0) [] (state 0) := .init rfl
  have hinstalled : Reach (ingress capacity fun _ => 0) _ (state 1) :=
    hstart.next (a := IngressAction.installPartition 0) ⟨fun _ h => absurd h (Nat.not_lt_zero _), rfl⟩
  have hfirst : Reach (ingress capacity fun _ => 0) _ (state 2) :=
    hinstalled.next (a := IngressAction.control 0 7 20 10) ⟨(rfl : ((state 1).generations 0).partition = 0), rfl⟩
  have hsecond : Reach (ingress capacity fun _ => 0) _ (state 3) :=
    hfirst.next (a := IngressAction.control 0 7 21 10) ⟨(rfl : ((state 2).generations 0).partition = 0), rfl⟩
  have hturn : Reach (ingress capacity fun _ => 0) _ (state 4) :=
    hsecond.next (a := IngressAction.turn 0 0) ⟨trivial, rfl⟩
  have hrevoked : Reach (ingress capacity fun _ => 0) _ (state 5) :=
    hturn.next (a := IngressAction.revoke 0) ⟨trivial, rfl⟩
  have hanswer : Reach (ingress capacity fun _ => 0) _ (state 6) :=
    hrevoked.next (a := IngressAction.answer 0 0 (.receipt 20 true)) ⟨trivial, rfl⟩
  have hsettled : Reach (ingress capacity fun _ => 0) _ (state 7) :=
    hanswer.next (a := IngressAction.settle 0 0) ⟨trivial, rfl⟩
  exact hsettled.next (a := IngressAction.turn 0 1) ⟨trivial, rfl⟩

end Example

open Example in
/-- Only the first publication has been handed over, and the second waits to be given up. -/
theorem publications_ordered_revoked :
    (state 8).sent = [(7, 0, 0)] ∧ (state 8).pendingFacts = 1 ∧ Ordered capacity (state 8) :=
  ⟨by decide +kernel, by decide +kernel, (publications_ordered state_reach).1⟩

end SessionPublicationIngress
end Runtime
end PiCloud
