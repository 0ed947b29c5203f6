import Mathlib.Tactic.FieldSimp
import Mathlib.Tactic.LinearCombination
import Mathlib.Tactic.Ring
import PiCloud.Lib.Paging
import PiCloud.Lib.Tiling

/-!
# Accounting.ResourcePricing

What a usage receipt costs: its interval, cut where a rate takes effect, with each part priced by
the rates at its start.

* `ResourceMeteringEvent`, `ResourceRate`: the receipts and the rates.
* `priceResourceInterval`, `valueResourceReceipt`: the price of one part, and the parts.
* `latest`, `unitCost`: the rate at an instant, and what a millisecond costs under it, exactly.
* `valuation_tiles`, `valuation_latest`, `valuation_exact`: the parts, their rates and their sum.
-/

namespace PiCloud
namespace Accounting

open Lib

inductive ResourceKind where
  | compute
  | workspace
deriving DecidableEq

inductive RateKind where
  | customer
  | upstreamEstimate
deriving DecidableEq

inductive Quality where
  | confirmed
  | unconfirmed
deriving DecidableEq

inductive Reason where
  | sourceRestarted
  | observationUnavailable
  | instanceChanged
  | clockChanged
  | collectionUnavailable
deriving DecidableEq

inductive ResourceState where
  | running
  | retained
  | paused
  | absent
  | unknown
deriving DecidableEq

structure ResourceIdentity where
  kind : ResourceKind
  resourceId : String
  tenantId : String
  workspaceId : String
deriving DecidableEq

inductive Quantity where
  | compute (cpuMillis memoryBytes : Nat)
  | workspace (capacityBytes : Nat)
deriving DecidableEq

def Quantity.kind : Quantity → ResourceKind
  | .compute _ _ => .compute
  | .workspace _ => .workspace

/-- Times are in milliseconds, as the timestamps give them. -/
structure ResourceMeteringEvent where
  eventId : String
  resource : ResourceIdentity
  sourceId : String
  sourceBootId : String
  incarnation : String
  fromAt : Int
  toAt : Int
  quality : Quality
  reason : Option Reason := none
  state : ResourceState
  quantity : Quantity
deriving DecidableEq

instance neZero_ten : NeZero 10 := ⟨by decide⟩

/-- A decimal number of at most six places. -/
structure Price where
  whole : Nat
  fraction : List (Fin 10) := []
  short : fraction.length ≤ 6 := by decide
deriving DecidableEq

inductive Tariff where
  | compute (cpuCore memoryGiB : Price)
  | workspace (capacityGiB : Price)
deriving DecidableEq

def Tariff.kind : Tariff → ResourceKind
  | .compute _ _ => .compute
  | .workspace _ => .workspace

structure ResourceRateInput where
  kind : RateKind
  effectiveAt : Int
  currency : String
  perHour : Tariff
deriving DecidableEq

def ResourceRateInput.resourceKind (rate : ResourceRateInput) : ResourceKind := rate.perHour.kind

structure ResourceRate extends ResourceRateInput where
  id : String
deriving DecidableEq

inductive ResourcePrice where
  | unconfirmed (reason : Option Reason)
  /-- `missing_rate` -/
  | unpriced
  | priced (rateId currency : String) (amountPico : Int)
deriving DecidableEq

structure ResourceValuation where
  fromAt : Int
  toAt : Int
  customer : ResourcePrice
  upstreamEstimate : ResourcePrice
deriving DecidableEq

/-! ## The price of an interval -/

def digits (l : List (Fin 10)) : Nat := l.foldl (fun n (d : Fin 10) => 10 * n + d.val) 0

def micro (value : Price) : Nat :=
  value.whole * 1000000 +
    digits (value.fraction ++ List.replicate (6 - value.fraction.length) 0)

def gib : Nat := 1073741824

def numerator : Quantity → Tariff → Nat
  | .compute cpuMillis memoryBytes, .compute cpuCore memoryGiB =>
    micro cpuCore * cpuMillis * gib + micro memoryGiB * memoryBytes * 1000
  | .workspace capacityBytes, .workspace capacityGiB => micro capacityGiB * capacityBytes
  | _, _ => 0

def denominator : ResourceKind → Nat
  | .compute => 3600000 * 1000 * gib
  | .workspace => 3600000 * gib

/-- One common denominator, and one final division. -/
def priceResourceInterval (event : ResourceMeteringEvent) (durationMs : Int)
    (rate : Option ResourceRate) : ResourcePrice :=
  if event.quality ≠ .confirmed then .unconfirmed event.reason
  else
    match rate with
    | none => .unpriced
    | some rate =>
      if rate.resourceKind ≠ event.quantity.kind then .unpriced
      else
        .priced rate.id rate.currency
          (((numerator event.quantity rate.perHour : Int) * durationMs * 1000000).tdiv
            (denominator event.quantity.kind))

def select (rates : List ResourceRate) (kind : RateKind) (start : Int) : Option ResourceRate :=
  (sortBy (fun r => OrderDual.toDual r.effectiveAt)
    (rates.filter fun r => r.kind = kind ∧ r.effectiveAt ≤ start)).head?

def boundaries (event : ResourceMeteringEvent) (rates : List ResourceRate) : List Int :=
  let inner := (rates.map fun r => r.effectiveAt).filter fun t => event.fromAt < t ∧ t < event.toAt
  let sorted := sortBy id (event.fromAt :: event.toAt :: inner).dedup
  if sorted.length = 1 then sorted ++ [event.toAt] else sorted

/-- The part of a receipt between two boundaries. -/
def valuePart (event : ResourceMeteringEvent) (rates : List ResourceRate) (p : Int × Int) :
    ResourceValuation where
  fromAt := p.1
  toAt := p.2
  customer := priceResourceInterval event (p.2 - p.1) (select rates .customer p.1)
  upstreamEstimate := priceResourceInterval event (p.2 - p.1) (select rates .upstreamEstimate p.1)

def valueResourceReceipt (event : ResourceMeteringEvent) (rates : List ResourceRate) :
    List ResourceValuation :=
  (pairs (boundaries event rates)).map (valuePart event rates)

namespace ResourceValuation

def span (v : ResourceValuation) : Int × Int := (v.fromAt, v.toAt)

def price (v : ResourceValuation) : RateKind → ResourcePrice
  | .customer => v.customer
  | .upstreamEstimate => v.upstreamEstimate

end ResourceValuation

/-! ## Exact costs -/

def Price.value (p : Price) : ℚ := p.whole + digits p.fraction / 10 ^ p.fraction.length

theorem digits_append (l : List (Fin 10)) (d : Fin 10) : digits (l ++ [d]) = 10 * digits l + d := by
  unfold digits
  rw [List.foldl_append]
  rfl

theorem digits_zeros (l : List (Fin 10)) (n : Nat) :
    digits (l ++ List.replicate n 0) = digits l * 10 ^ n := by
  induction n with
  | zero => simp
  | succ n ih =>
    rw [List.replicate_succ', ← List.append_assoc, digits_append, ih, pow_succ]
    simp only [Fin.coe_ofNat_eq_mod, Nat.zero_mod]
    ring

theorem micro_value (p : Price) : (micro p : ℚ) = p.value * 10 ^ 6 := by
  have hpow : (10 : ℚ) ^ 6 = 10 ^ (6 - p.fraction.length) * 10 ^ p.fraction.length := by
    rw [← pow_add, Nat.sub_add_cancel p.short]
  unfold micro Price.value
  rw [digits_zeros]
  push_cast
  field_simp
  linear_combination -(digits p.fraction : ℚ) * hpow

/-- What a millisecond costs, in units of 10⁻¹² of the currency. -/
def Tariff.perMs : Quantity → Tariff → ℚ
  | .compute cpuMillis memoryBytes, .compute cpuCore memoryGiB =>
    (cpuCore.value * (cpuMillis / 1000) + memoryGiB.value * (memoryBytes / 2 ^ 30)) / 3600000 * 10 ^ 12
  | .workspace capacityBytes, .workspace capacityGiB =>
    capacityGiB.value * (capacityBytes / 2 ^ 30) / 3600000 * 10 ^ 12
  | _, _ => 0

theorem perMs_eq (q : Quantity) (t : Tariff) (h : t.kind = q.kind) :
    t.perMs q = (numerator q t : ℚ) * 1000000 / denominator q.kind := by
  cases q with
  | compute cpuMillis memoryBytes =>
    cases t with
    | compute cpuCore memoryGiB =>
      unfold Tariff.perMs numerator denominator Quantity.kind gib
      push_cast
      rw [micro_value, micro_value]
      ring
    | workspace capacityGiB => cases h
  | workspace capacityBytes =>
    cases t with
    | compute cpuCore memoryGiB => cases h
    | workspace capacityGiB =>
      unfold Tariff.perMs numerator denominator Quantity.kind gib
      push_cast
      rw [micro_value]
      ring

/-- What a millisecond of a receipt costs, in the currencies of `p`. -/
def unitCost (event : ResourceMeteringEvent) (p : String → Bool) (rate : Option ResourceRate) : ℚ :=
  match rate with
  | none => 0
  | some rate =>
    if event.quality = .confirmed ∧ p rate.currency = true then rate.perHour.perMs event.quantity else 0

/-- The amount of a price, in the currencies of `p`. -/
def ResourcePrice.amount (p : String → Bool) : ResourcePrice → Int
  | .priced _ currency amountPico => if p currency then amountPico else 0
  | _ => 0

theorem perMs_of_ne {q : Quantity} {t : Tariff} (h : t.kind ≠ q.kind) : t.perMs q = 0 := by
  cases q <;> cases t <;> first | rfl | exact absurd rfl h

theorem tdiv_exact {n d : Int} (hn : 0 ≤ n) (hd : 0 < d) :
    ((n.tdiv d : Int) : ℚ) ≤ (n : ℚ) / d ∧ (n : ℚ) / d < (n.tdiv d : Int) + 1 := by
  have hd' : (0 : ℚ) < d := Int.cast_pos.mpr hd
  rw [Int.tdiv_eq_ediv_of_nonneg hn, le_div_iff₀ hd', div_lt_iff₀ hd']
  exact ⟨by exact_mod_cast Int.ediv_mul_le n hd.ne', by exact_mod_cast Int.lt_ediv_add_one_mul_self n hd⟩

theorem price_exact (event : ResourceMeteringEvent) (p : String → Bool) (rate : Option ResourceRate)
    {d : Int} (hd : 0 ≤ d) :
    (((priceResourceInterval event d rate).amount p : Int) : ℚ) ≤ d * unitCost event p rate ∧
      d * unitCost event p rate < ((priceResourceInterval event d rate).amount p : Int) + 1 := by
  unfold priceResourceInterval unitCost
  cases rate with
  | none =>
    split
    · simp [ResourcePrice.amount]
    · simp [ResourcePrice.amount]
  | some rate =>
    dsimp only
    split
    · rename_i hquality
      rw [if_neg fun h => hquality h.1]
      simp [ResourcePrice.amount]
    · rename_i hquality
      split
      · rename_i hkind
        have hzero : rate.perHour.perMs event.quantity = 0 := perMs_of_ne hkind
        rw [hzero, ite_self]
        simp [ResourcePrice.amount]
      · rename_i hkind
        unfold ResourcePrice.amount
        dsimp only
        by_cases hp : p rate.currency = true
        · rw [if_pos hp, if_pos ⟨not_not.mp hquality, hp⟩, perMs_eq _ _ (not_not.mp hkind)]
          have hden : (0 : Int) < denominator event.quantity.kind := by
            cases event.quantity <;> simp [denominator, Quantity.kind, gib]
          have hnum : 0 ≤ (numerator event.quantity rate.perHour : Int) * d * 1000000 :=
            mul_nonneg (mul_nonneg (Int.natCast_nonneg _) hd) (by norm_num)
          have hexact := tdiv_exact hnum hden
          have heq : (d : ℚ) * ((numerator event.quantity rate.perHour : ℚ) * 1000000 /
              denominator event.quantity.kind) =
              (((numerator event.quantity rate.perHour : Int) * d * 1000000 : Int) : ℚ) /
                (denominator event.quantity.kind : Int) := by
            push_cast
            ring
          rw [heq]
          exact hexact
        · rw [if_neg hp, if_neg fun h => hp h.2]
          simp

/-! ## The parts of a receipt -/

section Latest

open Classical in
/-- The latest of the rates of a kind that are effective at an instant. -/
noncomputable def latest (rates : List ResourceRate) (kind : RateKind) (x : ℝ) : Option ResourceRate :=
  (rates.filter fun r => r.kind = kind ∧ (r.effectiveAt : ℝ) ≤ x).argmax fun r => r.effectiveAt

theorem select_argmax (rates : List ResourceRate) (kind : RateKind) (start : Int) :
    select rates kind start =
      (rates.filter fun r => r.kind = kind ∧ r.effectiveAt ≤ start).argmax
        fun r => r.effectiveAt := head?_sortBy _

theorem select_latest {rates : List ResourceRate} {start : Int} {x : ℝ} (kind : RateKind)
    (hx : (start : ℝ) ≤ x) (hnone : ∀ r ∈ rates, (r.effectiveAt : ℝ) ≤ x → r.effectiveAt ≤ start) :
    select rates kind start = latest rates kind x := by
  rw [select_argmax]
  unfold latest
  congr 1
  refine List.filter_congr fun r hr => decide_eq_decide.mpr (and_congr_right fun _ => ?_)
  exact ⟨fun hle => (Int.cast_le.mpr hle).trans hx, hnone r hr⟩

end Latest

variable {event : ResourceMeteringEvent} {rates : List ResourceRate}

theorem pairwise_boundaries (l : List Int) : (sortBy id l.dedup).Pairwise (· < ·) := by
  refine pairwise_sortBy ?_
  simpa using List.nodup_dedup l

theorem boundaries_sorted (rates : List ResourceRate) (h : event.fromAt < event.toAt) :
    (boundaries event rates).Pairwise (· < ·) ∧ event.fromAt ∈ boundaries event rates ∧
      event.toAt ∈ boundaries event rates ∧
      (∀ c ∈ boundaries event rates, event.fromAt ≤ c ∧ c ≤ event.toAt) ∧
      ∀ r ∈ rates, event.fromAt < r.effectiveAt → r.effectiveAt < event.toAt →
        r.effectiveAt ∈ boundaries event rates := by
  unfold boundaries
  extract_lets inner sorted
  have hmem : ∀ c, c ∈ sorted ↔ c = event.fromAt ∨ c = event.toAt ∨ c ∈ inner := by
    intro c
    rw [show sorted = sortBy id (event.fromAt :: event.toAt :: inner).dedup from rfl, mem_sortBy,
      List.mem_dedup, List.mem_cons, List.mem_cons]
  have hinner : ∀ c, c ∈ inner ↔
      c ∈ (rates.map fun r => r.effectiveAt) ∧ event.fromAt < c ∧ c < event.toAt := by
    intro c
    rw [show inner = (rates.map fun r => r.effectiveAt).filter
      fun t => event.fromAt < t ∧ t < event.toAt from rfl, List.mem_filter, decide_eq_true_iff]
  have hlength : sorted.length ≠ 1 := by
    intro hone
    obtain ⟨c, hc⟩ := List.length_eq_one_iff.mp hone
    have hfrom := (hmem event.fromAt).mpr (.inl rfl)
    have hto := (hmem event.toAt).mpr (.inr (.inl rfl))
    rw [hc, List.mem_singleton] at hfrom hto
    exact h.ne (hfrom.trans hto.symm)
  rw [if_neg hlength]
  refine ⟨pairwise_boundaries _, (hmem _).mpr (.inl rfl), (hmem _).mpr (.inr (.inl rfl)),
    fun c hc => ?_, fun r hr hfrom hto => (hmem _).mpr (.inr (.inr ((hinner _).mpr ?_)))⟩
  · obtain rfl | rfl | hin := (hmem c).mp hc
    · exact ⟨le_rfl, h.le⟩
    · exact ⟨h.le, le_rfl⟩
    · exact ⟨((hinner c).mp hin).2.1.le, ((hinner c).mp hin).2.2.le⟩
  · exact ⟨List.mem_map_of_mem hr, hfrom, hto⟩

theorem boundaries_empty (h : event.fromAt = event.toAt) :
    boundaries event rates = [event.fromAt, event.fromAt] := by
  have hinner : (rates.map fun r => r.effectiveAt).filter
      (fun t => event.fromAt < t ∧ t < event.toAt) = [] := by
    refine List.filter_eq_nil_iff.mpr fun t _ ht => ?_
    rw [decide_eq_true_iff, ← h] at ht
    exact absurd (ht.1.trans ht.2) (lt_irrefl _)
  unfold boundaries
  dsimp only
  rw [hinner, ← h]
  simp [sortBy]

theorem boundaries_tiles (rates : List ResourceRate) (h : event.fromAt ≤ event.toAt) :
    Tiles event.fromAt event.toAt (pairs (boundaries event rates)) := by
  obtain hlt | heq := h.lt_or_eq
  · obtain ⟨hsorted, hfrom, hto, hle, -⟩ := boundaries_sorted rates hlt
    exact tiles_pairs hsorted hfrom hto hle
  · rw [boundaries_empty heq, ← heq]
    exact .cons le_rfl (.nil _)

theorem select_part (h : event.fromAt ≤ event.toAt) {p : Int × Int}
    (hp : p ∈ pairs (boundaries event rates)) (kind : RateKind) {x : ℝ} (hx : (p.1 : ℝ) ≤ x)
    (hx' : x < p.2) : select rates kind p.1 = latest rates kind x := by
  have hbounds := (boundaries_tiles rates h).bounds hp
  have hlt : p.1 < p.2 := Int.cast_lt.mp (hx.trans_lt hx')
  obtain ⟨hsorted, -, -, -, hin⟩ :=
    boundaries_sorted rates (hbounds.1.trans_lt (hlt.trans_le hbounds.2.2))
  refine select_latest kind hx fun r hr hrx => ?_
  by_contra hlate
  have hlate := not_le.mp hlate
  have hbefore : r.effectiveAt < p.2 := Int.cast_lt.mp (hrx.trans_lt hx')
  have hmem := hin r hr (hbounds.1.trans_lt hlate) (hbefore.trans_le hbounds.2.2)
  exact absurd hbefore (not_lt.mpr ((pairs_consecutive hsorted hp).2 _ hmem hlate))

theorem valuation_spans : (valueResourceReceipt event rates).map ResourceValuation.span =
    pairs (boundaries event rates) := by
  unfold valueResourceReceipt
  rw [List.map_map]
  exact List.map_id _

theorem valuation_tiles (h : event.fromAt ≤ event.toAt) :
    Tiles event.fromAt event.toAt ((valueResourceReceipt event rates).map ResourceValuation.span) := by
  rw [valuation_spans]
  exact boundaries_tiles rates h

theorem valuation_nonempty (h : event.fromAt < event.toAt) {v : ResourceValuation}
    (hv : v ∈ valueResourceReceipt event rates) : v.fromAt < v.toAt := by
  have hspan : v.span ∈ pairs (boundaries event rates) := by
    rw [← valuation_spans]
    exact List.mem_map_of_mem hv
  exact (pairs_consecutive (boundaries_sorted rates h).1 hspan).1

theorem price_part (p : Int × Int) (kind : RateKind) :
    (valuePart event rates p).price kind =
      priceResourceInterval event (p.2 - p.1) (select rates kind p.1) := by
  cases kind <;> rfl

theorem valuation_latest (h : event.fromAt ≤ event.toAt) (kind : RateKind) {v : ResourceValuation}
    (hv : v ∈ valueResourceReceipt event rates) {x : ℝ} (hx : (v.fromAt : ℝ) ≤ x) (hx' : x < v.toAt) :
    v.price kind = priceResourceInterval event (v.toAt - v.fromAt) (latest rates kind x) := by
  unfold valueResourceReceipt at hv
  obtain ⟨p, hp, rfl⟩ := List.mem_map.mp hv
  rw [price_part, select_part h hp kind hx hx']
  rfl

/-- What a receipt costs in all, in the currencies of `p`. -/
def totalPico (kind : RateKind) (p : String → Bool) (valuation : List ResourceValuation) : Int :=
  (valuation.map fun v => (v.price kind).amount p).sum

theorem sum_exact {α : Type} (l : List α) (f : α → Int) (g : α → ℝ)
    (h : ∀ a ∈ l, ((f a : Int) : ℝ) ≤ g a ∧ g a < (f a : Int) + 1) :
    (((l.map f).sum : Int) : ℝ) ≤ (l.map g).sum ∧ (l.map g).sum ≤ ((l.map f).sum : Int) + l.length ∧
      (l ≠ [] → (l.map g).sum < ((l.map f).sum : Int) + l.length) := by
  induction l with
  | nil => simp
  | cons a l ih =>
    obtain ⟨hle, hge, -⟩ := ih fun b hb => h b (List.mem_cons_of_mem _ hb)
    obtain ⟨ha, ha'⟩ := h a List.mem_cons_self
    simp only [List.map_cons, List.sum_cons, List.length_cons, Int.cast_add, Nat.cast_add, Nat.cast_one]
    refine ⟨add_le_add ha hle, ?_, fun _ => ?_⟩
    · linarith
    · linarith

theorem boundaries_pairs (h : event.fromAt ≤ event.toAt) : pairs (boundaries event rates) ≠ [] := by
  obtain hlt | heq := h.lt_or_eq
  · have htiles := boundaries_tiles rates h
    obtain ⟨q, hq, -⟩ := htiles.exists_mem le_rfl (Int.cast_lt.mpr hlt)
    exact List.ne_nil_of_mem hq
  · rw [boundaries_empty heq]
    nofun

open MeasureTheory in
theorem valuation_exact (h : event.fromAt ≤ event.toAt) (kind : RateKind) (p : String → Bool) :
    (totalPico kind p (valueResourceReceipt event rates) : ℝ) ≤
        ∫ x in Set.Ico (event.fromAt : ℝ) event.toAt, (unitCost event p (latest rates kind x) : ℝ) ∧
      ∫ x in Set.Ico (event.fromAt : ℝ) event.toAt, (unitCost event p (latest rates kind x) : ℝ) <
        totalPico kind p (valueResourceReceipt event rates) +
          (valueResourceReceipt event rates).length := by
  have htiles := boundaries_tiles rates h
  have hintegral := (htiles.integral (f := fun x => (unitCost event p (latest rates kind x) : ℝ))
    (c := fun q => (unitCost event p (select rates kind q.1) : ℝ)) fun q hq x hx hx' => by
      rw [select_part h hq kind hx hx']).2
  have htotal : totalPico kind p (valueResourceReceipt event rates) =
      ((pairs (boundaries event rates)).map fun q =>
        (priceResourceInterval event (q.2 - q.1) (select rates kind q.1)).amount p).sum := by
    unfold totalPico valueResourceReceipt
    rw [List.map_map]
    congr 1
    exact List.map_congr_left fun q _ => congrArg (ResourcePrice.amount p) (price_part q kind)
  have hlength : (valueResourceReceipt event rates).length = (pairs (boundaries event rates)).length :=
    List.length_map _
  have hsum := sum_exact (pairs (boundaries event rates))
    (fun q => (priceResourceInterval event (q.2 - q.1) (select rates kind q.1)).amount p)
    (fun q => ((q.2 : ℝ) - q.1) * (unitCost event p (select rates kind q.1) : ℝ)) fun q hq => by
      have hq' : 0 ≤ q.2 - q.1 := sub_nonneg.mpr (htiles.bounds hq).2.1
      obtain ⟨hle, hlt⟩ := price_exact event p (select rates kind q.1) hq'
      have hcast : ((q.2 : ℝ) - q.1) * (unitCost event p (select rates kind q.1) : ℝ) =
          ((((q.2 - q.1 : Int) : ℚ) * unitCost event p (select rates kind q.1) : ℚ) : ℝ) := by
        push_cast
        rfl
      rw [hcast]
      exact ⟨by exact_mod_cast hle, by exact_mod_cast hlt⟩
  rw [hintegral, htotal, hlength]
  exact ⟨hsum.1, hsum.2.2 (boundaries_pairs h)⟩

/-! ## Fewer rates -/

def Unambiguous (rates : List ResourceRate) : Prop :=
  ∀ r ∈ rates, ∀ q ∈ rates, r.kind = q.kind → r.effectiveAt = q.effectiveAt → r = q

theorem mem_select {kind : RateKind} {start : Int} {r : ResourceRate}
    (h : select rates kind start = some r) : r ∈ rates ∧ r.kind = kind ∧ r.effectiveAt ≤ start ∧
      ∀ q ∈ rates, q.kind = kind → q.effectiveAt ≤ start → q.effectiveAt ≤ r.effectiveAt := by
  rw [select_argmax] at h
  have hmem := List.argmax_mem h
  rw [List.mem_filter, decide_eq_true_iff] at hmem
  refine ⟨hmem.1, hmem.2.1, hmem.2.2, fun q hq hkind hle => ?_⟩
  have hq' : q ∈ rates.filter fun r => r.kind = kind ∧ r.effectiveAt ≤ start :=
    List.mem_filter.mpr ⟨hq, decide_eq_true ⟨hkind, hle⟩⟩
  exact List.le_of_mem_argmax (f := fun r : ResourceRate => r.effectiveAt) hq' h

theorem select_isSome {kind : RateKind} {start : Int} {q : ResourceRate} (hq : q ∈ rates)
    (hkind : q.kind = kind) (hle : q.effectiveAt ≤ start) : ∃ r, select rates kind start = some r := by
  rw [select_argmax]
  refine Option.ne_none_iff_exists'.mp fun hnone => ?_
  have hmem : q ∈ rates.filter fun r => r.kind = kind ∧ r.effectiveAt ≤ start :=
    List.mem_filter.mpr ⟨hq, decide_eq_true ⟨hkind, hle⟩⟩
  rw [List.argmax_eq_none.mp hnone] at hmem
  cases hmem

theorem select_fewer {few : List ResourceRate} (hunique : Unambiguous rates)
    (hsub : ∀ r ∈ few, r ∈ rates) {kind : RateKind} {start : Int}
    (hcover : ∀ r ∈ rates, r.kind = kind → r.effectiveAt ≤ start →
      ∃ q ∈ few, q.kind = kind ∧ r.effectiveAt ≤ q.effectiveAt ∧ q.effectiveAt ≤ start) :
    select few kind start = select rates kind start := by
  cases hfull : select rates kind start with
  | none =>
    cases hfew : select few kind start with
    | none => rfl
    | some q =>
      obtain ⟨hq, hkind, hle, -⟩ := mem_select hfew
      obtain ⟨r, hr⟩ := select_isSome (hsub q hq) hkind hle
      rw [hfull] at hr
      cases hr
  | some r =>
    obtain ⟨hr, hkind, hle, hlatest⟩ := mem_select hfull
    obtain ⟨q, hq, hqkind, hrq, hqle⟩ := hcover r hr hkind hle
    have hqr : r = q :=
      hunique r hr q (hsub q hq) (hkind.trans hqkind.symm)
        (hrq.antisymm (hlatest q (hsub q hq) hqkind hqle))
    obtain ⟨s, hs⟩ := select_isSome hq hqkind hqle
    obtain ⟨hmem, hskind, hsle, hslatest⟩ := mem_select hs
    rw [hs]
    congr 1
    refine hunique s (hsub s hmem) r hr (hskind.trans hkind.symm) ?_
    refine (hlatest s (hsub s hmem) hskind hsle).antisymm ?_
    rw [hqr]
    exact hslatest q hq hqkind hqle

theorem boundaries_congr {few : List ResourceRate}
    (h : ∀ t, event.fromAt < t → t < event.toAt →
      (t ∈ few.map (·.effectiveAt) ↔ t ∈ rates.map (·.effectiveAt))) :
    boundaries event few = boundaries event rates := by
  have hinner : ∀ t, (t ∈ (few.map (·.effectiveAt)).filter fun t => event.fromAt < t ∧ t < event.toAt) ↔
      t ∈ (rates.map (·.effectiveAt)).filter fun t => event.fromAt < t ∧ t < event.toAt := by
    intro t
    rw [List.mem_filter, List.mem_filter, decide_eq_true_iff]
    exact and_congr_left fun ht => h t ht.1 ht.2
  unfold boundaries
  have hsorted : sortBy id (event.fromAt :: event.toAt :: (few.map (·.effectiveAt)).filter
        fun t => event.fromAt < t ∧ t < event.toAt).dedup =
      sortBy id (event.fromAt :: event.toAt :: (rates.map (·.effectiveAt)).filter
        fun t => event.fromAt < t ∧ t < event.toAt).dedup := by
    refine sortBy_perm ?_ (by simpa using List.nodup_dedup _)
    refine (List.perm_ext_iff_of_nodup (List.nodup_dedup _) (List.nodup_dedup _)).mpr fun t => ?_
    simp only [List.mem_dedup, List.mem_cons, hinner]
  dsimp only
  rw [hsorted]

theorem valuation_congr {few : List ResourceRate} (h : event.fromAt ≤ event.toAt)
    (hwithin : ∀ t, event.fromAt < t → t < event.toAt →
      (t ∈ few.map (·.effectiveAt) ↔ t ∈ rates.map (·.effectiveAt)))
    (hselect : ∀ kind t, event.fromAt ≤ t → t = event.fromAt ∨ t < event.toAt →
      select few kind t = select rates kind t) :
    valueResourceReceipt event few = valueResourceReceipt event rates := by
  unfold valueResourceReceipt
  rw [boundaries_congr hwithin]
  refine List.map_congr_left fun p hp => ?_
  have hbounds := (boundaries_tiles rates h).bounds hp
  have hstart : p.1 = event.fromAt ∨ p.1 < event.toAt := by
    obtain hlt | heq := h.lt_or_eq
    · exact .inr ((pairs_consecutive (boundaries_sorted rates hlt).1 hp).1.trans_le hbounds.2.2)
    · exact .inl (le_antisymm (heq ▸ hbounds.2.1.trans hbounds.2.2) hbounds.1)
  unfold valuePart
  rw [hselect .customer p.1 hbounds.1 hstart, hselect .upstreamEstimate p.1 hbounds.1 hstart]

end Accounting
end PiCloud
