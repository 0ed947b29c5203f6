import PiCloud.Lib.History
import PiCloud.Worker.FamilyModelPermits

/-!
# Worker.PermitAccounting

The two levels of limits, the ready queue and the waiters agree after every operation.

* `Sound`: the counters, the queues and what has settled, up to one family that is being changed.
* `Sound.settle`, `Sound.giveBack`, `Sound.prune`, `Sound.grant`, `Sound.enqueue`: one change each.
-/

namespace PiCloud
namespace Worker

open Lib (InsertionMap bind_some guard_some pairwise_snoc)

namespace Permits

variable {κ : Type} [DecidableEq κ]

def grants (s : Permits κ) : List Nat := (s.settled.filter (·.2 = .granted)).map Prod.fst

def key (s : Permits κ) (w : Nat) : Option κ := (s.owner w).map Prod.fst

def ofCell (s : Permits κ) (ref w : Nat) : Bool := (s.owner w).any (·.2 = ref)

/-- `but` is a family whose place in the ready queue and in the map is not settled yet. -/
structure Sound (o : Limits) (but : Option κ) (s : Permits κ) : Prop where
  inj : ∀ k j r, s.families.get k = some r → s.families.get j = some r → k = j
  fresh : ∀ k r, s.families.get k = some r → r < s.nextCell
  idle : ∀ r, (∀ k, s.families.get k ≠ some r) → s.cells r = {}
  live : ∀ k r, but ≠ some k → s.families.get k = some r → s.cells r ≠ {}
  nodup : s.ready.Nodup
  ready : ∀ k, but ≠ some k →
    (k ∈ s.ready ↔ ∃ r, s.families.get k = some r ∧ (s.cells r).queue ≠ [])
  sum : s.active = s.families.sum fun r => (s.cells r).active
  within : ∀ m, o.maximum = some m → s.active ≤ m
  perFamily : ∀ r p, o.perFamily = some p → (s.cells r).active ≤ p
  waiter : ∀ r w, w ∈ (s.cells r).queue → w < s.issued ∧ w ∉ s.settled.map Prod.fst ∧
    ∃ k, s.owner w = some (k, r) ∧ s.families.get k = some r
  sorted : ∀ r, (s.cells r).queue.Pairwise (· < ·)
  every : ∀ w < s.issued, w ∈ s.settled.map Prod.fst ∨ ∃ r, w ∈ (s.cells r).queue
  once : (s.settled.map Prod.fst).Nodup
  past : ∀ w ∈ s.settled.map Prod.fst, w < s.issued
  order : s.grants.Pairwise fun a b => s.key a = s.key b → a < b
  fifo : ∀ a ∈ s.grants, ∀ r, ∀ b ∈ (s.cells r).queue, s.key a = s.key b → a < b
  held : ∀ r, (s.cells r).active = s.permits.countP (s.ofCell r)
  permit : ∀ w ∈ s.permits, w ∈ s.grants ∧
    ∃ k r, s.owner w = some (k, r) ∧ s.families.get k = some r
  listener : ∀ w ∈ s.listening, ∃ r, w ∈ (s.cells r).queue
  listenOnce : s.listening.Nodup
  permitOnce : s.permits.Nodup

omit [DecidableEq κ] in
theorem mem_grants {s : Permits κ} {w : Nat} : w ∈ s.grants ↔ (w, .granted) ∈ s.settled := by
  unfold grants
  rw [List.mem_map]
  constructor
  · rintro ⟨⟨v, outcome⟩, hmem, rfl⟩
    rw [List.mem_filter, decide_eq_true_iff] at hmem
    obtain ⟨hmem, rfl⟩ := hmem
    exact hmem
  · intro hmem
    exact ⟨(w, .granted), List.mem_filter.mpr ⟨hmem, decide_eq_true rfl⟩, rfl⟩

omit [DecidableEq κ] in
theorem grants_settled {s : Permits κ} {w : Nat} (h : w ∈ s.grants) :
    w ∈ s.settled.map Prod.fst :=
  List.mem_map.mpr ⟨_, mem_grants.mp h, rfl⟩

theorem Sound.initial (o : Limits) : Sound o none (.initial : Permits κ) where
  inj := nofun
  fresh := nofun
  idle _ _ := rfl
  live := nofun
  nodup := List.nodup_nil
  ready k _ := by
    constructor
    · intro hk
      cases hk
    · rintro ⟨r, hr, -⟩
      cases hr
  sum := rfl
  within _ _ := Nat.zero_le _
  perFamily _ _ _ := Nat.zero_le _
  waiter := nofun
  sorted _ := List.Pairwise.nil
  every := nofun
  once := List.nodup_nil
  past := nofun
  order := List.Pairwise.nil
  fifo := nofun
  held _ := rfl
  permit := nofun
  listener := nofun
  listenOnce := List.nodup_nil
  permitOnce := List.nodup_nil

section Changes
variable {o : Limits} {s : Permits κ} {k : κ} {ref : Nat}

omit [DecidableEq κ] in
theorem cells_setCell (s : Permits κ) (ref r : Nat) (f : Family) :
    (s.setCell ref f).cells r = if r = ref then f else s.cells r := Function.update_apply ..

theorem Sound.settle (h : Sound o none s) (hk : s.families.get k = some ref)
    (gone queue listening : List Nat) (outcome : Settlement)
    (hperm : (gone ++ queue).Perm (s.cells ref).queue)
    (hqueue : queue.Sublist (s.cells ref).queue) (hout : outcome ≠ .granted)
    (hl : listening.Sublist s.listening) (hlg : ∀ w ∈ listening, w ∉ gone) :
    Sound o (some k) { s.setCell ref { s.cells ref with queue } with
      settled := s.settled ++ gone.map (·, outcome), listening } := by
  have hgone : ∀ w ∈ gone, w ∈ (s.cells ref).queue := fun w hw =>
    hperm.subset (List.mem_append_left _ hw)
  have hfst : (s.settled ++ gone.map (·, outcome)).map Prod.fst = s.settled.map Prod.fst ++ gone := by
    rw [List.map_append, List.map_map]
    congr 1
    exact List.map_id' gone
  have hgrants : ∀ t : Permits κ, t.settled = s.settled ++ gone.map (·, outcome) →
      t.grants = s.grants := by
    intro t ht
    unfold grants
    rw [ht, List.filter_append, List.map_append]
    have hnone : (gone.map (·, outcome)).filter (fun e => decide (e.2 = Settlement.granted)) = [] := by
      rw [List.filter_eq_nil_iff]
      intro e he
      obtain ⟨w, -, rfl⟩ := List.mem_map.mp he
      rw [decide_eq_true_iff]
      exact hout
    rw [hnone, List.map_nil, List.append_nil]
  have hdup : (gone ++ queue).Nodup := hperm.nodup_iff.mpr ((h.sorted ref).imp Nat.ne_of_lt)
  have hq : ∀ r w, w ∈ ((s.setCell ref { s.cells ref with queue }).cells r).queue →
      w ∈ (s.cells r).queue ∧ w ∉ gone := by
    intro r w hw
    rw [cells_setCell] at hw
    split at hw
    · rename_i hr
      subst hr
      refine ⟨hqueue.subset hw, fun hg => ?_⟩
      exact List.disjoint_of_nodup_append hdup hg hw
    · rename_i hr
      refine ⟨hw, fun hg => hr ?_⟩
      obtain ⟨-, -, j, hj, -⟩ := h.waiter r w hw
      obtain ⟨-, -, i, hi, -⟩ := h.waiter ref w (hgone w hg)
      rw [hj] at hi
      cases hi
      rfl
  have hactive : ∀ r, ((s.setCell ref { s.cells ref with queue }).cells r).active =
      (s.cells r).active := by
    intro r
    rw [cells_setCell]
    split
    · rename_i hr
      rw [hr]
    · rfl
  have hother : ∀ j r, j ≠ k → s.families.get j = some r →
      (s.setCell ref { s.cells ref with queue }).cells r = s.cells r := by
    intro j r hjk hj
    rw [cells_setCell, if_neg]
    rintro rfl
    exact hjk (h.inj j k r hj hk)
  constructor
  · exact h.inj
  · exact h.fresh
  · intro r hr
    show (s.setCell ref _).cells r = _
    rw [cells_setCell, if_neg]
    · exact h.idle r hr
    · rintro rfl
      exact hr k hk
  · intro j r hjk hj
    show (s.setCell ref _).cells r ≠ _
    rw [hother j r (fun hjk' => hjk (by rw [hjk'])) hj]
    exact h.live j r nofun hj
  · exact h.nodup
  · intro j hjk
    refine (h.ready j nofun).trans ⟨?_, ?_⟩
    · rintro ⟨r, hj, hne⟩
      exact ⟨r, hj, by rw [hother j r (fun hjk' => hjk (by rw [hjk'])) hj]; exact hne⟩
    · rintro ⟨r, hj, hne⟩
      exact ⟨r, hj, by rw [hother j r (fun hjk' => hjk (by rw [hjk'])) hj] at hne; exact hne⟩
  · refine h.sum.trans (InsertionMap.sum_congr fun j r _ => ?_)
    exact (hactive r).symm
  · exact h.within
  · intro r p hp
    show ((s.setCell ref _).cells r).active ≤ p
    rw [hactive]
    exact h.perFamily r p hp
  · intro r w hw
    obtain ⟨hw, hng⟩ := hq r w hw
    obtain ⟨hlt, hns, howner⟩ := h.waiter r w hw
    refine ⟨hlt, ?_, howner⟩
    show w ∉ (s.settled ++ gone.map (·, outcome)).map Prod.fst
    rw [hfst, List.mem_append]
    rintro (hs | hg)
    · exact hns hs
    · exact hng hg
  · intro r
    show ((s.setCell ref _).cells r).queue.Pairwise _
    rw [cells_setCell]
    split
    · exact (h.sorted ref).sublist hqueue
    · exact h.sorted r
  · intro w hw
    show w ∈ (s.settled ++ gone.map (·, outcome)).map Prod.fst ∨ _
    rw [hfst, List.mem_append]
    rcases h.every w hw with hs | ⟨r, hr⟩
    · exact .inl (.inl hs)
    · by_cases href : r = ref
      · subst href
        rcases List.mem_append.mp (hperm.symm.subset hr) with hg | hq'
        · exact .inl (.inr hg)
        · refine .inr ⟨r, ?_⟩
          show w ∈ ((s.setCell r _).cells r).queue
          rw [cells_setCell, if_pos rfl]
          exact hq'
      · refine .inr ⟨r, ?_⟩
        show w ∈ ((s.setCell ref _).cells r).queue
        rw [cells_setCell, if_neg href]
        exact hr
  · show ((s.settled ++ gone.map (·, outcome)).map Prod.fst).Nodup
    rw [hfst]
    refine List.nodup_append.mpr ⟨h.once, (List.nodup_append.mp hdup).1, ?_⟩
    rintro a ha b hb rfl
    exact (h.waiter ref a (hgone a hb)).2.1 ha
  · intro w hw
    change w ∈ (s.settled ++ gone.map (·, outcome)).map Prod.fst at hw
    rw [hfst, List.mem_append] at hw
    rcases hw with hs | hg
    · exact h.past w hs
    · exact (h.waiter ref w (hgone w hg)).1
  · rw [hgrants _ rfl]
    exact h.order
  · rw [hgrants _ rfl]
    intro a ha r b hb
    exact h.fifo a ha r b (hq r b hb).1
  · intro r
    show ((s.setCell ref _).cells r).active = _
    rw [hactive]
    exact h.held r
  · intro w hw
    rw [hgrants _ rfl]
    exact h.permit w hw
  · intro w hw
    obtain ⟨r, hr⟩ := h.listener w (hl.subset hw)
    refine ⟨r, ?_⟩
    show w ∈ ((s.setCell ref _).cells r).queue
    rw [cells_setCell]
    split
    · rename_i href
      rw [href] at hr
      rcases List.mem_append.mp (hperm.symm.subset hr) with hg | hq'
      · exact absurd hg (hlg w hw)
      · exact hq'
    · exact hr
  · exact h.listenOnce.sublist hl
  · exact h.permitOnce

theorem Sound.permit_key (h : Sound o none s) {w : Nat} (hw : w ∈ s.permits)
    (how : s.owner w = some (k, ref)) : s.families.get k = some ref := by
  obtain ⟨-, j, r, hj, hget⟩ := h.permit w hw
  rw [how] at hj
  cases hj
  exact hget

theorem Sound.giveBack (h : Sound o none s) {w : Nat} (hw : w ∈ s.permits)
    (how : s.owner w = some (k, ref)) {f : Family} (hactive : f.active = (s.cells ref).active - 1)
    (hq : f.queue = (s.cells ref).queue) :
    Sound o (some k) { s.setCell ref f with
      active := s.active - 1
      permits := s.permits.erase w } := by
  have hk : s.families.get k = some ref := h.permit_key hw how
  have hcell : s.ofCell ref w = true := by
    unfold ofCell
    rw [how]
    exact decide_eq_true rfl
  have hpos : 0 < (s.cells ref).active := by
    rw [h.held ref, List.countP_pos_iff]
    exact ⟨w, hw, hcell⟩
  have hsame : ∀ r, r ≠ ref → (s.setCell ref f).cells r = s.cells r := by
    intro r hr
    rw [cells_setCell, if_neg hr]
  have hqueue : ∀ r, ((s.setCell ref f).cells r).queue = (s.cells r).queue := by
    intro r
    rw [cells_setCell]
    split
    · rename_i hr
      rw [hr, hq]
    · rfl
  have hother : ∀ j r, s.families.get j = some r → j ≠ k → r ≠ ref := by
    rintro j r hj hjk rfl
    exact hjk (h.inj j k r hj hk)
  have hsum : s.families.sum (fun r => (s.cells r).active) =
      s.families.sum (fun r => ((s.setCell ref f).cells r).active) + 1 := by
    have hupdate := InsertionMap.sum_update (f := fun r => (s.cells r).active)
      (g := fun r => ((s.setCell ref f).cells r).active)
      hk (fun j r hj hjk => by rw [hsame r (hother j r hj hjk)])
    rw [cells_setCell, if_pos rfl, hactive] at hupdate
    omega
  constructor
  · exact h.inj
  · exact h.fresh
  · intro r hr
    refine (hsame r ?_).trans (h.idle r hr)
    rintro rfl
    exact hr k hk
  · intro j r hjk hj
    show (s.setCell ref _).cells r ≠ _
    rw [hsame r (hother j r hj fun hjk' => hjk (by rw [hjk']))]
    exact h.live j r nofun hj
  · exact h.nodup
  · intro j hjk
    refine (h.ready j nofun).trans (exists_congr fun r => and_congr_right fun _ => ?_)
    show _ ↔ ((s.setCell ref _).cells r).queue ≠ []
    rw [hqueue]
  · exact Nat.sub_eq_of_eq_add (h.sum.trans hsum)
  · intro m hm
    exact Nat.le_trans (Nat.sub_le ..) (h.within m hm)
  · intro r p hp
    have hle := h.perFamily r p hp
    show ((s.setCell ref _).cells r).active ≤ p
    rw [cells_setCell]
    split
    · rename_i hr
      rw [hr] at hle
      rw [hactive]
      exact Nat.le_trans (Nat.sub_le ..) hle
    · exact hle
  · intro r v hv
    exact h.waiter r v (hqueue r ▸ hv)
  · intro r
    show ((s.setCell ref _).cells r).queue.Pairwise _
    rw [hqueue]
    exact h.sorted r
  · intro v hv
    refine (h.every v hv).imp_right ?_
    rintro ⟨r, hr⟩
    exact ⟨r, (hqueue r).symm ▸ hr⟩
  · exact h.once
  · exact h.past
  · exact h.order
  · intro a ha r b hb
    exact h.fifo a ha r b (hqueue r ▸ hb)
  · intro r
    show ((s.setCell ref _).cells r).active = (s.permits.erase w).countP (s.ofCell r)
    have hcount := (List.perm_cons_erase hw).countP_eq (s.ofCell r)
    rw [← h.held r, List.countP_cons] at hcount
    by_cases hr : r = ref
    · subst hr
      rw [if_pos hcell] at hcount
      rw [cells_setCell, if_pos rfl, hactive]
      exact Nat.sub_eq_of_eq_add hcount
    · rw [if_neg, Nat.add_zero] at hcount
      · rw [hsame r hr, hcount]
      · unfold ofCell
        rw [how, Option.any_some, decide_eq_true_iff]
        exact fun hin => hr hin.symm
  · exact fun v hv => h.permit v (List.mem_of_mem_erase hv)
  · intro v hv
    obtain ⟨r, hr⟩ := h.listener v hv
    exact ⟨r, (hqueue r).symm ▸ hr⟩
  · exact h.listenOnce
  · exact h.permitOnce.erase w

theorem Sound.reorder {but : Option κ} (h : Sound o but s) (ready : List κ)
    (hperm : ready.Perm s.ready) : Sound o but { s with ready } :=
  { h with
    nodup := hperm.nodup_iff.mpr h.nodup
    ready := fun j hj => hperm.mem_iff.trans (h.ready j hj) }

theorem Sound.prune (h : Sound o (some k) s) (hk : s.families.get k = some ref)
    (hmem : (s.cells ref).queue ≠ [] → k ∈ s.ready) : Sound o none (s.prune k ref) := by
  unfold Permits.prune
  by_cases hq : (s.cells ref).queue = []
  swap
  · rw [if_neg hq, if_neg fun hb => hq hb.2]
    refine { h with live := ?_, ready := ?_ }
    · intro j r _ hj
      by_cases hjk : j = k
      · subst hjk
        rw [hk] at hj
        cases hj
        intro hempty
        exact hq (by rw [hempty])
      · exact h.live j r (fun he => hjk (Option.some.inj he).symm) hj
    · intro j _
      by_cases hjk : j = k
      · subst hjk
        exact iff_of_true (hmem hq) ⟨ref, hk, hq⟩
      · exact h.ready j fun he => hjk (Option.some.inj he).symm
  rw [if_pos hq]
  have hready : ∀ j, j ∈ s.ready.erase k ↔
      ∃ r, s.families.get j = some r ∧ (s.cells r).queue ≠ [] := by
    intro j
    rw [h.nodup.mem_erase_iff]
    by_cases hjk : j = k
    · subst hjk
      refine iff_of_false (fun hb => hb.1 rfl) ?_
      rintro ⟨r, hr, hne⟩
      rw [hk] at hr
      cases hr
      exact hne hq
    · rw [h.ready j fun he => hjk (Option.some.inj he).symm]
      exact and_iff_right hjk
  by_cases hactive : (s.cells ref).active = 0
  swap
  · rw [if_neg fun hb => hactive hb.1]
    refine { h with nodup := h.nodup.erase k, live := ?_, ready := fun j _ => hready j }
    intro j r _ hj
    by_cases hjk : j = k
    · subst hjk
      rw [hk] at hj
      cases hj
      intro hempty
      exact hactive (by rw [hempty])
    · exact h.live j r (fun he => hjk (Option.some.inj he).symm) hj
  rw [if_pos ⟨hactive, hq⟩]
  have hget : ∀ j r, (s.families.delete k).get j = some r → j ≠ k ∧ s.families.get j = some r := by
    intro j r hj
    obtain ⟨hjk, hj⟩ := InsertionMap.get_delete_iff.mp hj
    exact ⟨hjk, hj⟩
  have hkeep : ∀ j r, j ≠ k → s.families.get j = some r → (s.families.delete k).get j = some r := by
    intro j r hjk hj
    rw [InsertionMap.get_delete, if_neg hjk]
    exact hj
  have hcell : s.cells ref = {} := by
    cases hf : s.cells ref with
    | mk active queue =>
      rw [hf] at hactive hq
      dsimp only at hactive hq
      rw [hactive, hq]
  refine { h with nodup := h.nodup.erase k, inj := ?_, fresh := ?_, idle := ?_, live := ?_,
                  ready := ?_, sum := ?_, waiter := ?_, permit := ?_ }
  · intro i j r hi hj
    exact h.inj i j r (hget i r hi).2 (hget j r hj).2
  · intro j r hj
    exact h.fresh j r (hget j r hj).2
  · intro r hr
    by_cases href : r = ref
    · rw [href]
      exact hcell
    · refine h.idle r fun j hj => hr j (hkeep j r ?_ hj)
      rintro rfl
      rw [hk] at hj
      cases hj
      exact href rfl
  · intro j r _ hj
    obtain ⟨hjk, hj⟩ := hget j r hj
    exact h.live j r (fun he => hjk (Option.some.inj he).symm) hj
  · intro j _
    refine (hready j).trans (exists_congr fun r => and_congr_left fun hne => ⟨fun hj => ?_, ?_⟩)
    · refine hkeep j r ?_ hj
      rintro rfl
      rw [hk] at hj
      cases hj
      exact hne hq
    · exact fun hj => (hget j r hj).2
  · have hsum := InsertionMap.sum_delete (f := fun r => (s.cells r).active) hk
    rw [hactive, Nat.add_zero, ← h.sum] at hsum
    exact hsum.symm
  · intro r w hw
    obtain ⟨hlt, hns, j, hown, hj⟩ := h.waiter r w hw
    refine ⟨hlt, hns, j, hown, hkeep j r ?_ hj⟩
    rintro rfl
    rw [hk] at hj
    cases hj
    change w ∈ (s.cells ref).queue at hw
    rw [hq] at hw
    cases hw
  · intro w hw
    obtain ⟨hg, j, r, hown, hj⟩ := h.permit w hw
    refine ⟨hg, j, r, hown, hkeep j r ?_ hj⟩
    rintro rfl
    rw [hk] at hj
    cases hj
    have hnone := h.held ref
    rw [hactive, eq_comm, List.countP_eq_zero] at hnone
    refine hnone w hw ?_
    unfold ofCell
    rw [hown]
    exact decide_eq_true rfl

theorem Sound.grant (h : Sound o none s) (hk : s.families.get k = some ref) {w : Nat}
    {queue : List Nat} {ready : List κ} (hready : s.ready = k :: ready)
    (hq : (s.cells ref).queue = w :: queue) (hopen : s.open? o = true)
    (hroom : full o (s.cells ref) = false) : Sound o none (s.grant k ref w queue ready) := by
  have hw : w ∈ (s.cells ref).queue := by
    rw [hq]
    exact List.mem_cons_self
  obtain ⟨hlt, hns, hown⟩ := h.waiter ref w hw
  replace hown : s.owner w = some (k, ref) := by
    obtain ⟨j, hown, hj⟩ := hown
    rw [hown, h.inj j k ref hj hk]
  have hcell : s.ofCell ref w = true := by
    unfold ofCell
    rw [hown]
    exact decide_eq_true rfl
  have hsorted := h.sorted ref
  rw [hq, List.pairwise_cons] at hsorted
  have hcells : ∀ r, (s.grant k ref w queue ready).cells r =
      if r = ref then ⟨(s.cells ref).active + 1, queue⟩ else s.cells r := fun r =>
    Function.update_apply ..
  have hself : (s.grant k ref w queue ready).cells ref = ⟨(s.cells ref).active + 1, queue⟩ := by
    rw [hcells, if_pos rfl]
  have hsame : ∀ r, r ≠ ref → (s.grant k ref w queue ready).cells r = s.cells r := by
    intro r hr
    rw [hcells, if_neg hr]
  have hother : ∀ j r, s.families.get j = some r → j ≠ k → r ≠ ref := by
    rintro j r hj hjk rfl
    exact hjk (h.inj j k r hj hk)
  have hqueue : ∀ r v, v ∈ ((s.grant k ref w queue ready).cells r).queue →
      v ∈ (s.cells r).queue ∧ v ≠ w := by
    intro r v hv
    by_cases hr : r = ref
    · rw [hr, hself] at hv
      rw [hr, hq]
      exact ⟨List.mem_cons_of_mem _ hv, (Nat.ne_of_lt (hsorted.1 v hv)).symm⟩
    · rw [hsame r hr] at hv
      refine ⟨hv, fun hvw => hr ?_⟩
      obtain ⟨-, -, j, hj, -⟩ := h.waiter r v hv
      rw [hvw, hown] at hj
      cases hj
      rfl
  have hfst : (s.grant k ref w queue ready).settled.map Prod.fst = s.settled.map Prod.fst ++ [w] :=
    List.map_append
  have hgrants : (s.grant k ref w queue ready).grants = s.grants ++ [w] := by
    unfold grants Permits.grant
    rw [List.filter_append, List.map_append]
    rfl
  have hrest : ready.Nodup ∧ k ∉ ready := by
    have hnodup := h.nodup
    rw [hready, List.nodup_cons] at hnodup
    exact ⟨hnodup.2, hnodup.1⟩
  constructor
  · exact h.inj
  · exact h.fresh
  · intro r hr
    refine (hsame r ?_).trans (h.idle r hr)
    rintro rfl
    exact hr k hk
  · intro j r _ hj
    by_cases hr : r = ref
    · rw [hr, hself]
      intro hempty
      cases hempty
    · rw [hsame r hr]
      exact h.live j r nofun hj
  · show (if queue = [] then ready else ready ++ [k]).Nodup
    split
    · exact hrest.1
    · exact (List.perm_append_comm.nodup_iff).mpr (List.nodup_cons.mpr ⟨hrest.2, hrest.1⟩)
  · intro j _
    show j ∈ (if queue = [] then ready else ready ++ [k]) ↔ _
    have hold := h.ready j nofun
    rw [hready, List.mem_cons] at hold
    by_cases hjk : j = k
    · subst hjk
      split
      · rename_i hempty
        refine iff_of_false hrest.2 ?_
        rintro ⟨r, hr, hne⟩
        rw [show r = ref from Option.some.inj (hr.symm.trans hk), hself] at hne
        exact hne hempty
      · rename_i hne
        refine iff_of_true (List.mem_append_right _ List.mem_cons_self) ⟨ref, hk, ?_⟩
        rw [hself]
        exact hne
    · have hmem : j ∈ (if queue = [] then ready else ready ++ [k]) ↔ j = k ∨ j ∈ ready := by
        split
        · exact (or_iff_right hjk).symm
        · rw [List.mem_append, List.mem_singleton]
          exact or_comm
      refine (hmem.trans hold).trans (exists_congr fun r => and_congr_right fun hj => ?_)
      rw [hsame r (hother j r hj hjk)]
  · have hsum := InsertionMap.sum_update (f := fun r => (s.cells r).active)
      (g := fun r => ((s.grant k ref w queue ready).cells r).active) hk
      (fun j r hj hjk => by rw [hsame r (hother j r hj hjk)])
    rw [hself] at hsum
    have hall := h.sum
    show s.active + 1 = s.families.sum fun r => ((s.grant k ref w queue ready).cells r).active
    dsimp only at hsum
    omega
  · intro m hm
    unfold open? at hopen
    rw [hm, Option.all_some, decide_eq_true_iff] at hopen
    exact hopen
  · intro r p hp
    by_cases hr : r = ref
    · unfold full at hroom
      rw [hp, Option.any_some, decide_eq_false_iff_not, Nat.not_le] at hroom
      rw [hr, hself]
      exact hroom
    · rw [hsame r hr]
      exact h.perFamily r p hp
  · intro r v hv
    obtain ⟨hv, hvw⟩ := hqueue r v hv
    obtain ⟨hlt, hns, hown⟩ := h.waiter r v hv
    refine ⟨hlt, ?_, hown⟩
    rw [hfst, List.mem_append, List.mem_singleton]
    rintro (hs | rfl)
    · exact hns hs
    · exact hvw rfl
  · intro r
    by_cases hr : r = ref
    · rw [hr, hself]
      exact hsorted.2
    · rw [hsame r hr]
      exact h.sorted r
  · intro v hv
    rw [hfst, List.mem_append, List.mem_singleton]
    rcases h.every v hv with hs | ⟨r, hr⟩
    · exact .inl (.inl hs)
    · by_cases href : r = ref
      · rw [href, hq, List.mem_cons] at hr
        rcases hr with rfl | hr
        · exact .inl (.inr rfl)
        · exact .inr ⟨ref, by rw [hself]; exact hr⟩
      · exact .inr ⟨r, by rw [hsame r href]; exact hr⟩
  · rw [hfst]
    exact (List.perm_append_comm.nodup_iff).mpr (List.nodup_cons.mpr ⟨hns, h.once⟩)
  · intro v hv
    rw [hfst, List.mem_append, List.mem_singleton] at hv
    rcases hv with hs | rfl
    · exact h.past v hs
    · exact hlt
  · rw [hgrants]
    exact pairwise_snoc h.order fun a ha hab => h.fifo a ha ref w hw hab
  · intro a ha r b hb hab
    rw [hgrants, List.mem_append, List.mem_singleton] at ha
    obtain ⟨hb', -⟩ := hqueue r b hb
    rcases ha with ha | rfl
    · exact h.fifo a ha r b hb' hab
    · obtain ⟨-, -, j, hj, hget⟩ := h.waiter r b hb'
      have hkj : k = j := by
        change (s.owner a).map Prod.fst = (s.owner b).map Prod.fst at hab
        rw [hown, hj] at hab
        exact Option.some.inj hab
      subst hkj
      rw [hk] at hget
      cases hget
      rw [hself] at hb
      exact hsorted.1 b hb
  · intro r
    show _ = (w :: s.permits).countP (s.ofCell r)
    rw [List.countP_cons, ← h.held r]
    by_cases hr : r = ref
    · rw [hr, hself, if_pos hcell]
    · rw [hsame r hr, if_neg, Nat.add_zero]
      unfold ofCell
      rw [hown, Option.any_some, decide_eq_true_iff]
      exact fun hin => hr hin.symm
  · intro v hv
    rw [hgrants, List.mem_append, List.mem_singleton]
    rcases List.mem_cons.mp hv with rfl | hv
    · exact ⟨.inr rfl, k, ref, hown, hk⟩
    · obtain ⟨hg, hin⟩ := h.permit v hv
      exact ⟨.inl hg, hin⟩
  · intro v hv
    obtain ⟨hvw, hv⟩ := h.listenOnce.mem_erase_iff.mp hv
    obtain ⟨r, hr⟩ := h.listener v hv
    refine ⟨r, ?_⟩
    by_cases href : r = ref
    · rw [href, hq, List.mem_cons] at hr
      rw [href, hself]
      exact hr.resolve_left hvw
    · rw [hsame r href]
      exact hr
  · exact h.listenOnce.erase w
  · exact List.nodup_cons.mpr ⟨fun hp => hns (grants_settled (h.permit w hp).1), h.permitOnce⟩

theorem Sound.family (h : Sound o none s) (key : κ) :
    Sound o (some key) (s.family key).1 ∧
      (s.family key).1.families.get key = some (s.family key).2 ∧
      (key ∈ (s.family key).1.ready ↔ ((s.family key).1.cells (s.family key).2).queue ≠ []) := by
  unfold Permits.family
  split
  · rename_i ref hk
    refine ⟨{ h with live := ?_, ready := ?_ }, hk, ?_⟩
    · exact fun j r _ hj => h.live j r (by rintro ⟨⟩) hj
    · exact fun j _ => h.ready j (by rintro ⟨⟩)
    · refine (h.ready key (by rintro ⟨⟩)).trans ⟨?_, fun hne => ⟨ref, hk, hne⟩⟩
      rintro ⟨r, hr, hne⟩
      rw [hk] at hr
      cases hr
      exact hne
  · rename_i hnone
    have hunused : ∀ j, s.families.get j ≠ some s.nextCell :=
      fun j hj => Nat.lt_irrefl _ (h.fresh j _ hj)
    have hcells : Function.update s.cells s.nextCell {} = s.cells := by
      rw [← h.idle _ hunused]
      exact Function.update_eq_self _ _
    have hget : ∀ j r, (s.families.set key s.nextCell).get j = some r →
        (j = key ∧ r = s.nextCell) ∨ (j ≠ key ∧ s.families.get j = some r) := by
      intro j r hj
      by_cases hjk : j = key
      · rw [hjk, InsertionMap.get_set_self] at hj
        cases hj
        exact .inl ⟨hjk, rfl⟩
      · rw [InsertionMap.get_set_ne _ _ hjk] at hj
        exact .inr ⟨hjk, hj⟩
    have hkeep : ∀ j r, s.families.get j = some r →
        (s.families.set key s.nextCell).get j = some r := by
      intro j r hj
      rw [InsertionMap.get_set_ne _ _ ?_]
      · exact hj
      · rintro rfl
        rw [hnone] at hj
        cases hj
    have hready : key ∉ s.ready := by
      rw [h.ready key (by rintro ⟨⟩)]
      rintro ⟨r, hr, -⟩
      rw [hnone] at hr
      cases hr
    dsimp only
    rw [hcells]
    refine ⟨{ h with inj := ?_, fresh := ?_, idle := ?_, live := ?_, ready := ?_, sum := ?_,
                     waiter := ?_, permit := ?_ }, InsertionMap.get_set_self .., ?_⟩
    · intro i j r hi hj
      rcases hget i r hi with ⟨rfl, rfl⟩ | ⟨-, hi⟩
      · rcases hget j _ hj with ⟨rfl, -⟩ | ⟨-, hj⟩
        · rfl
        · exact absurd hj (hunused j)
      · rcases hget j r hj with ⟨-, rfl⟩ | ⟨-, hj⟩
        · exact absurd hi (hunused i)
        · exact h.inj i j r hi hj
    · intro j r hj
      rcases hget j r hj with ⟨-, rfl⟩ | ⟨-, hj⟩
      · exact Nat.lt_succ_self _
      · exact Nat.lt_succ_of_lt (h.fresh j r hj)
    · exact fun r hr => h.idle r fun j hj => hr j (hkeep j r hj)
    · intro j r hjk hj
      rcases hget j r hj with ⟨rfl, -⟩ | ⟨-, hj⟩
      · exact absurd rfl hjk
      · exact h.live j r (by rintro ⟨⟩) hj
    · intro j hjk
      refine (h.ready j (by rintro ⟨⟩)).trans (exists_congr fun r => and_congr_left fun _ => ⟨hkeep j r, ?_⟩)
      intro hj
      rcases hget j r hj with ⟨rfl, -⟩ | ⟨-, hj⟩
      · exact absurd rfl hjk
      · exact hj
    · show s.active = _
      rw [InsertionMap.sum_set _ _ _ hnone, h.idle _ hunused]
      exact h.sum
    · intro r w hw
      obtain ⟨hlt, hns, j, hown, hj⟩ := h.waiter r w hw
      exact ⟨hlt, hns, j, hown, hkeep j r hj⟩
    · intro w hw
      obtain ⟨hg, j, r, hown, hj⟩ := h.permit w hw
      exact ⟨hg, j, r, hown, hkeep j r hj⟩
    · refine iff_of_false hready fun hne => hne ?_
      rw [h.idle _ hunused]

theorem Sound.enqueue (h : Sound o (some k) s) (hk : s.families.get k = some ref)
    (hready : k ∈ s.ready ↔ (s.cells ref).queue ≠ []) {ready : List κ}
    (hr : ready = if (s.cells ref).queue = [] then s.ready ++ [k] else s.ready)
    (listening : List Nat) (hl : listening = s.listening ∨ listening = s.issued :: s.listening) :
    Sound o none { s with
      issued := s.issued + 1
      owner := Function.update s.owner s.issued (some (k, ref))
      ready
      cells := Function.update s.cells ref
        { s.cells ref with queue := (s.cells ref).queue ++ [s.issued] }
      listening } := by
  have hself : Function.update s.cells ref
      { s.cells ref with queue := (s.cells ref).queue ++ [s.issued] } ref =
        ⟨(s.cells ref).active, (s.cells ref).queue ++ [s.issued]⟩ := Function.update_self ..
  have hsame : ∀ r, r ≠ ref → Function.update s.cells ref
      { s.cells ref with queue := (s.cells ref).queue ++ [s.issued] } r = s.cells r :=
    fun r hr => Function.update_of_ne hr ..
  have hother : ∀ j r, s.families.get j = some r → j ≠ k → r ≠ ref := by
    rintro j r hj hjk rfl
    exact hjk (h.inj j k r hj hk)
  have hqueue : ∀ r v, v ∈ (Function.update s.cells ref
      { s.cells ref with queue := (s.cells ref).queue ++ [s.issued] } r).queue ↔
        v ∈ (s.cells r).queue ∨ v = s.issued ∧ r = ref := by
    intro r v
    by_cases hr : r = ref
    · rw [hr, hself, List.mem_append, List.mem_singleton, and_iff_left rfl]
    · rw [hsame r hr]
      exact (or_iff_left fun hb => hr hb.2).symm
  have hactive : ∀ r, (Function.update s.cells ref
      { s.cells ref with queue := (s.cells ref).queue ++ [s.issued] } r).active =
        (s.cells r).active := by
    intro r
    by_cases hr : r = ref
    · rw [hr, hself]
    · rw [hsame r hr]
  have howner : ∀ v, v < s.issued →
      Function.update s.owner s.issued (some (k, ref)) v = s.owner v := fun v hv =>
    Function.update_of_ne (Nat.ne_of_lt hv) ..
  have hgrant : ∀ v ∈ s.grants, v < s.issued := fun v hv => h.past v (grants_settled hv)
  constructor
  · exact h.inj
  · exact h.fresh
  · intro r hr
    refine (hsame r ?_).trans (h.idle r hr)
    rintro rfl
    exact hr k hk
  · intro j r _ hj
    by_cases hjr : r = ref
    · dsimp only
      rw [hjr, hself]
      intro hempty
      have hnil : (s.cells ref).queue ++ [s.issued] = [] := congrArg Family.queue hempty
      exact List.append_ne_nil_of_right_ne_nil _ (List.cons_ne_nil _ _) hnil
    · dsimp only
      rw [hsame r hjr]
      refine h.live j r ?_ hj
      rintro hjk
      cases hjk
      rw [hk] at hj
      cases hj
      exact hjr rfl
  · subst hr
    dsimp only
    split
    · rename_i hempty
      have hout : k ∉ s.ready := fun hin => hready.mp hin hempty
      exact (List.perm_append_comm.nodup_iff).mpr (List.nodup_cons.mpr ⟨hout, h.nodup⟩)
    · exact h.nodup
  · intro j _
    have hmem : j ∈ ready ↔ j = k ∨ j ∈ s.ready := by
      subst hr
      split
      · rw [List.mem_append, List.mem_singleton]
        exact or_comm
      · rename_i hne
        refine ⟨.inr, ?_⟩
        rintro (rfl | hin)
        · exact hready.mpr hne
        · exact hin
    refine hmem.trans ?_
    by_cases hjk : j = k
    · subst hjk
      refine iff_of_true (.inl rfl) ⟨ref, hk, ?_⟩
      dsimp only
      rw [hself]
      exact List.append_ne_nil_of_right_ne_nil _ (List.cons_ne_nil _ _)
    · rw [or_iff_right hjk, h.ready j fun he => hjk (Option.some.inj he).symm]
      refine exists_congr fun r => and_congr_right fun hj => ?_
      dsimp only
      rw [hsame r (hother j r hj hjk)]
  · refine h.sum.trans (InsertionMap.sum_congr fun j r _ => ?_)
    exact (hactive r).symm
  · exact h.within
  · intro r p hp
    dsimp only
    rw [hactive]
    exact h.perFamily r p hp
  · intro r v hv
    rcases (hqueue r v).mp hv with hv | ⟨rfl, rfl⟩
    · obtain ⟨hlt, hns, hown⟩ := h.waiter r v hv
      refine ⟨Nat.lt_succ_of_lt hlt, hns, ?_⟩
      dsimp only
      rw [howner v hlt]
      exact hown
    · refine ⟨Nat.lt_succ_self _, fun hs => Nat.lt_irrefl _ (h.past _ hs), k, ?_, hk⟩
      exact Function.update_self ..
  · intro r
    by_cases hr : r = ref
    · dsimp only
      rw [hr, hself]
      exact pairwise_snoc (h.sorted ref) fun a ha => (h.waiter ref a ha).1
    · dsimp only
      rw [hsame r hr]
      exact h.sorted r
  · intro v hv
    rcases Nat.lt_succ_iff_lt_or_eq.mp hv with hv | rfl
    · refine (h.every v hv).imp_right ?_
      rintro ⟨r, hr⟩
      exact ⟨r, (hqueue r v).mpr (.inl hr)⟩
    · exact .inr ⟨ref, (hqueue ref _).mpr (.inr ⟨rfl, rfl⟩)⟩
  · exact h.once
  · exact fun v hv => Nat.lt_succ_of_lt (h.past v hv)
  · refine h.order.imp_of_mem ?_
    intro a b ha hb hab hkey
    unfold key at hab hkey
    dsimp only at hkey
    rw [howner a (hgrant a ha), howner b (hgrant b hb)] at hkey
    exact hab hkey
  · intro a ha r b hb hkey
    rcases (hqueue r b).mp hb with hb | ⟨rfl, -⟩
    · unfold key at hkey
      dsimp only at hkey
      rw [howner a (hgrant a ha), howner b (h.waiter r b hb).1] at hkey
      exact h.fifo a ha r b hb hkey
    · exact hgrant a ha
  · intro r
    dsimp only
    rw [hactive, h.held r]
    refine List.countP_congr fun v hv => ?_
    unfold ofCell
    dsimp only
    rw [howner v (hgrant v (h.permit v hv).1)]
  · intro v hv
    obtain ⟨hg, hown⟩ := h.permit v hv
    refine ⟨hg, ?_⟩
    dsimp only
    rw [howner v (hgrant v hg)]
    exact hown
  · intro v hv
    have hcase : v = s.issued ∨ v ∈ s.listening := by
      rcases hl with hl | hl
      · rw [hl] at hv
        exact .inr hv
      · rw [hl, List.mem_cons] at hv
        exact hv
    rcases hcase with rfl | hv
    · exact ⟨ref, (hqueue ref _).mpr (.inr ⟨rfl, rfl⟩)⟩
    · obtain ⟨r, hr⟩ := h.listener v hv
      exact ⟨r, (hqueue r v).mpr (.inl hr)⟩
  · rcases hl with hl | hl
    · rw [hl]
      exact h.listenOnce
    · rw [hl, List.nodup_cons]
      refine ⟨fun hin => ?_, h.listenOnce⟩
      obtain ⟨r, hr⟩ := h.listener _ hin
      exact Nat.lt_irrefl _ (h.waiter r _ hr).1
  · exact h.permitOnce

/-- A request that comes after `close` is refused at once. -/
theorem Sound.refuse (h : Sound o none s) : Sound o none { s with
    issued := s.issued + 1
    settled := s.settled ++ [(s.issued, Settlement.closed)] } := by
  have hfst : (s.settled ++ [(s.issued, Settlement.closed)]).map Prod.fst =
      s.settled.map Prod.fst ++ [s.issued] := List.map_append
  have hgrants : ∀ t : Permits κ, t.settled = s.settled ++ [(s.issued, Settlement.closed)] →
      t.grants = s.grants := by
    intro t ht
    unfold grants
    rw [ht, List.filter_append, List.map_append]
    exact List.append_nil _
  refine { h with waiter := ?_, every := ?_, once := ?_, past := ?_, order := ?_, fifo := ?_,
                  permit := ?_ }
  · intro r v hv
    obtain ⟨hlt, hns, hown⟩ := h.waiter r v hv
    refine ⟨Nat.lt_succ_of_lt hlt, ?_, hown⟩
    dsimp only
    rw [hfst, List.mem_append, List.mem_singleton]
    rintro (hs | rfl)
    · exact hns hs
    · exact Nat.lt_irrefl _ hlt
  · intro v hv
    dsimp only
    rw [hfst, List.mem_append, List.mem_singleton]
    rcases Nat.lt_succ_iff_lt_or_eq.mp hv with hv | rfl
    · exact (h.every v hv).imp_left .inl
    · exact .inl (.inr rfl)
  · dsimp only
    rw [hfst]
    refine (List.perm_append_comm.nodup_iff).mpr (List.nodup_cons.mpr ⟨fun hin => ?_, h.once⟩)
    exact Nat.lt_irrefl _ (h.past _ hin)
  · intro v hv
    dsimp only at hv
    rw [hfst, List.mem_append, List.mem_singleton] at hv
    rcases hv with hv | rfl
    · exact Nat.lt_succ_of_lt (h.past v hv)
    · exact Nat.lt_succ_self _
  · rw [hgrants _ rfl]
    exact h.order
  · rw [hgrants _ rfl]
    exact h.fifo
  · rw [hgrants _ rfl]
    exact h.permit

end Changes

end Permits
end Worker
end PiCloud
