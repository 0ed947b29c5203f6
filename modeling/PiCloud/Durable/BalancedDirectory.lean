import Mathlib.Data.Finset.Max
import Mathlib.Data.Int.Interval
import PiCloud.Durable.DirectoryTrees

/-!
# Durable.BalancedDirectory

The history directory as a persistent balanced sequence of ranges.

* `Records`: the published records that ranges summarize, and what a store's `clip` answers for
  them; `postgresClip` is the one of `postgres-history-directory.ts`.
* `Sequence s k xs`: the node stands for a balanced tree with exact summaries and the leaves `xs`.
* `directory_operations`: join, prefix and selection on such sequences.
-/

namespace PiCloud
namespace Durable

open Lib Directory

variable {S D : Type}

/-! ## Ranges of published records -/

/-- The ids that a source has published, and the fingerprint of a set of them. -/
structure Records (S : Type) where
  published : S → Finset Int
  fingerprint : S → Finset Int → JsString
  bounded : ∀ source, ∀ i ∈ published source, 1 ≤ i ∧ i ≤ maxSafe
  hex : ∀ source ids, isFingerprint (fingerprint source ids) = true

namespace Records

variable (records : Records S)

/-- The range that summarizes a set of ids. -/
def rangeOf (source : S) (ids : Finset Int) : Option (HistoryRange S) :=
  if h : ids.Nonempty then
    some { source, minId := ids.min' h, maxId := ids.max' h, count := ids.card,
           fingerprint := records.fingerprint source ids }
  else none

def idsOf (r : HistoryRange S) : Finset Int :=
  (records.published r.source).filter fun i => r.minId ≤ i ∧ i ≤ r.maxId

def Exact (r : HistoryRange S) : Prop := records.rangeOf r.source (records.idsOf r) = some r

/-- The range of the records of `r` up to a bound. -/
def atBound (maximumId : Int) (r : HistoryRange S) : Option (HistoryRange S) :=
  records.rangeOf r.source ((records.idsOf r).filter (· ≤ maximumId))

def ClipContract (clip : HistoryRange S → Int → Option (HistoryRange S)) : Prop :=
  ∀ r maximumId, records.Exact r → r.minId ≤ maximumId → maximumId < r.maxId →
    clip r maximumId = records.atBound maximumId r

def postgresClip (r : HistoryRange S) (maximumId : Int) : Option (HistoryRange S) :=
  records.rangeOf r.source ((records.published r.source).filter fun i =>
    r.minId ≤ i ∧ i ≤ min maximumId r.maxId)

theorem postgresClip_contract : records.ClipContract records.postgresClip := by
  intro r maximumId _ _ _
  unfold postgresClip atBound idsOf
  rw [Finset.filter_filter]
  congr 1
  ext i
  simp only [Finset.mem_filter]
  refine and_congr_right fun _ => ?_
  omega

variable {records}

theorem rangeOf_some {source : S} {ids : Finset Int} {r : HistoryRange S}
    (h : records.rangeOf source ids = some r) :
    r.source = source ∧ r.minId ∈ ids ∧ r.maxId ∈ ids ∧ r.count = ids.card ∧
      (∀ i ∈ ids, r.minId ≤ i ∧ i ≤ r.maxId) ∧ r.fingerprint = records.fingerprint source ids := by
  unfold rangeOf at h
  split at h
  · rename_i hne
    cases h
    refine ⟨rfl, ids.min'_mem hne, ids.max'_mem hne, rfl, ?_, rfl⟩
    exact fun i hi => ⟨ids.min'_le i hi, ids.le_max' i hi⟩
  · cases h

theorem idsOf_atBound {maximumId : Int} {r r' : HistoryRange S}
    (h : records.atBound maximumId r = some r') :
    records.idsOf r' = (records.idsOf r).filter (· ≤ maximumId) := by
  obtain ⟨hsource, hmin, hmax, -, hall, -⟩ := rangeOf_some h
  ext i
  simp only [idsOf, Finset.mem_filter] at hmin hmax hall ⊢
  rw [hsource]
  constructor
  · rintro ⟨hi, h1, h2⟩
    refine ⟨⟨hi, ?_, ?_⟩, ?_⟩ <;> omega
  · rintro hi
    exact ⟨hi.1.1, hall i hi⟩

theorem exact_atBound {maximumId : Int} {r r' : HistoryRange S}
    (h : records.atBound maximumId r = some r') : records.Exact r' := by
  have hids := idsOf_atBound h
  have hsource := (rangeOf_some h).1
  unfold Exact
  rw [hids, hsource]
  exact h

theorem atBound_atBound {maximumId lower : Int} (hle : lower ≤ maximumId) (r : HistoryRange S) :
    (records.atBound maximumId r).bind (records.atBound lower) = records.atBound lower r := by
  cases h : records.atBound maximumId r with
  | none =>
    have hempty : (records.idsOf r).filter (· ≤ maximumId) = ∅ := by
      unfold atBound rangeOf at h
      split at h
      · cases h
      · rename_i hne
        exact Finset.not_nonempty_iff_eq_empty.mp hne
    have hlower : (records.idsOf r).filter (· ≤ lower) = ∅ := by
      rw [Finset.filter_eq_empty_iff] at hempty ⊢
      intro i hi
      have := hempty hi
      omega
    rw [Option.bind_none, atBound, hlower, rangeOf, dif_neg (by simp)]
  | some r' =>
    rw [Option.bind_some, atBound, atBound, idsOf_atBound h, (rangeOf_some h).1,
      Finset.filter_filter]
    congr 1
    ext i
    simp only [Finset.mem_filter]
    refine and_congr_right fun _ => ?_
    omega

theorem clipLeaf_eq {clip : HistoryRange S → Int → Option (HistoryRange S)}
    (hclip : records.ClipContract clip) {r : HistoryRange S} (hr : records.Exact r)
    (maximumId : Int) : clipLeaf clip maximumId r = records.atBound maximumId r := by
  obtain ⟨-, hmin, hmax, -, hall, -⟩ := rangeOf_some hr
  unfold clipLeaf
  split
  · rename_i hlt
    have hempty : (records.idsOf r).filter (· ≤ maximumId) = ∅ := by
      rw [Finset.filter_eq_empty_iff]
      intro i hi
      have := (hall i hi).1
      omega
    rw [atBound, hempty, rangeOf, dif_neg (by simp)]
  · split
    · rename_i hle
      have hfull : (records.idsOf r).filter (· ≤ maximumId) = records.idsOf r := by
        rw [Finset.filter_eq_self]
        intro i hi
        have := (hall i hi).2
        omega
      rw [atBound, hfull]
      exact hr.symm
    · exact hclip r maximumId hr (by omega) (by omega)

theorem card_le {ids : Finset Int} (h : ∀ i ∈ ids, 1 ≤ i ∧ i ≤ maxSafe) :
    (ids.card : Int) ≤ maxSafe := by
  have hsub : ids ⊆ Finset.Icc 1 maxSafe := fun i hi => Finset.mem_Icc.mpr (h i hi)
  have hcard := Finset.card_le_card hsub
  rw [Int.card_Icc] at hcard
  simp only [maxSafe] at *
  omega

theorem atBound_clipsWell {clip : HistoryRange S → Int → Option (HistoryRange S)}
    [DecidableEq S] (hclip : records.ClipContract clip) {r : HistoryRange S}
    (hr : records.Exact r) (fails : String → Prop) (maximumId : Int) :
    ClipsWell clip fails maximumId r := by
  intro r' hmin hmax hc
  left
  rw [hclip r maximumId hr hmin hmax] at hc
  obtain ⟨hsource, h1, h2, hcount, hall, hfp⟩ := rangeOf_some hc
  have hrc := (rangeOf_some hr).2.2.2.1
  simp only [idsOf, Finset.mem_filter] at h1 h2
  have hb1 := records.bounded _ _ h1.1.1
  have hb2 := records.bounded _ _ h2.1.1
  have hle := (hall r'.maxId (by simpa only [idsOf, Finset.mem_filter] using h2)).1
  have hcard : r'.count ≤ r.count := by
    rw [hcount, hrc]
    exact_mod_cast Finset.card_le_card (Finset.filter_subset _ _)
  have hpos : 1 ≤ r'.count := by
    rw [hcount]
    have : 0 < ((records.idsOf r).filter (· ≤ maximumId)).card :=
      Finset.card_pos.mpr ⟨r'.minId, by simpa only [idsOf, Finset.mem_filter] using h1⟩
    omega
  have hsafe : r'.count ≤ maxSafe := by
    rw [hcount]
    refine card_le fun i hi => ?_
    simp only [idsOf, Finset.mem_filter] at hi
    exact records.bounded _ _ hi.1.1
  constructor
  · rintro (h | h | h | h)
    · exact h hsource
    all_goals omega
  · simp only [validRange, hfp, records.hex, Bool.and_true, Bool.and_eq_true, decide_eq_true_eq]
    omega

end Records

/-! ## Directories whose nodes can be read -/

namespace Directory

variable {hash : Nat → DraftNode S D → D}

def Available (s : Directory hash) (a : HistoryNode S D) : Prop :=
  s.cache a.id = some a ∨
    s.cache a.id = none ∧ s.store a.id = some a ∧ a.digest = hash a.id a.toDraftNode

theorem trust_available [DecidableEq D] (fails : String → Prop) :
    Trust (Available : Directory hash → HistoryNode S D → Prop) fails where
  grows := by
    intro s s' a hg ha
    rcases ha with hc | ⟨hc, hs, hd⟩
    · exact .inl (hg.cache hc)
    · cases hc' : s'.cache a.id with
      | none => exact .inr ⟨hc', hg.store ▸ hs, hd⟩
      | some m =>
        rcases hg.old hc' (s.stored hs) with ho | ho
        · rw [hc] at ho
          cases ho
        · rw [hs] at ho
          cases ho
          exact .inl hc'
  cached h := .inl h
  unique := by
    intro s a b ha hb hid _
    unfold Available at ha hb
    rw [hid] at ha
    rcases ha with ha | ⟨ha, has, -⟩ <;> rcases hb with hb | ⟨hb, hbs, -⟩
    · rw [ha] at hb
      exact Option.some.inj hb
    · rw [ha] at hb
      cases hb
    · rw [ha] at hb
      cases hb
    · rw [has] at hbs
      exact Option.some.inj hbs
  read := by
    intro s a ha
    refine Does.imp (read_does s a.id ?_) ?_
    · intro hc hno
      rcases ha with ha | ⟨-, hs, hd⟩
      · rw [ha] at hc
        cases hc
      · exact absurd ⟨rfl, hd⟩ (hno a hs)
    · rintro m s' - ⟨hm, -, hfound⟩
      refine ⟨hm, .inl ?_⟩
      rcases ha with ha | ⟨ha, hs, -⟩ <;> rcases hfound with hf | ⟨hf, hfs⟩
      · rw [ha] at hf
        exact (Option.some.inj hf).symm
      · rw [ha] at hf
        cases hf
      · rw [ha] at hf
        cases hf
      · rw [hs] at hfs
        exact (Option.some.inj hfs).symm

def Sequence (s : Directory hash) (k : Option (HistoryNode S D)) (xs : List (HistoryRange S)) :
    Prop :=
  Lists Available s True k xs

def Unchanged (s s' : Directory hash) : Prop :=
  ∀ n t, Holds Available s n t → Holds Available s' n t

theorem Grows.unchanged [DecidableEq D] {s s' : Directory hash} (h : Grows s s') :
    Unchanged s s' := fun _ _ hn => hn.grows (trust_available fun _ => False) h

def Returns {α : Type} (x : Op hash α) (s : Directory hash) (Q : α → Directory hash → Prop) :
    Prop :=
  ∃ a s', x.run s = (.ok a, s') ∧ Q a s' ∧ Unchanged s s'

theorem Does.returns [DecidableEq D] {α : Type} {x : Op hash α} {s : Directory hash}
    {Q : α → Directory hash → Prop} (h : Does (fun _ => False) x s Q) : Returns x s Q := by
  unfold Does Ends at h
  rcases hr : x.run s with ⟨e | a, s'⟩
  · rw [hr] at h
    exact h.2.elim
  · rw [hr] at h
    exact ⟨a, s', hr, h.2, h.1.unchanged⟩

variable [DecidableEq S] [DecidableEq D]

theorem prefixTo_does {records : Records S} {clip : HistoryRange S → Int → Option (HistoryRange S)}
    (hclip : records.ClipContract clip) {s : Directory hash} {m : Option (HistoryNode S D)}
    {xs : List (HistoryRange S)} (hm : Sequence s m xs) (hx : ∀ r ∈ xs, records.Exact r)
    (maximumId : Int) :
    Does (fun _ => False) (prefixTo clip m maximumId) s fun k s' =>
      Sequence s' k (xs.filterMap (records.atBound maximumId)) := by
  have hleaves : xs.filterMap (records.atBound maximumId) =
      xs.filterMap (clipLeaf clip maximumId) :=
    List.filterMap_congr fun r hr => (Records.clipLeaf_eq hclip (hx r hr) maximumId).symm
  rw [hleaves]
  cases hm with
  | none => exact Does.pure .none
  | @some n t holds bal =>
    have hheight := holds.height
    refine Does.imp (prefixWithin_does (trust_available _) n.height holds (by omega) ?_) ?_
    · exact fun r hr => Records.atBound_clipsWell hclip (hx r hr) _ _
    · exact fun k s' _ hk => hk.imp fun _ => bal trivial

omit [DecidableEq S] in
theorem mapRanges_does {select : HistoryRange S → Selected S} {s : Directory hash}
    {m : Option (HistoryNode S D)} {xs : List (HistoryRange S)} (hm : Sequence s m xs) :
    Does (fun e => e = "Invalid retained history range" ∧
        ∃ r ∈ xs, ∃ r', select r = .change r' ∧ validRange r' = false)
      (mapRanges select m) s fun k s' => Sequence s' k (xs.filterMap (selectLeaf select)) := by
  cases hm with
  | none => exact Does.pure .none
  | @some n t holds bal =>
    have hheight := holds.height
    refine Does.imp (mapWithin_does (trust_available _) n.height holds (by omega) ?_) ?_
    · intro r hr r' hs
      by_cases hv : validRange r' = true
      · exact .inl hv
      · exact .inr ⟨rfl, r, hr, r', hs, by simpa using hv⟩
    · exact fun k s' _ hk => hk.imp fun _ => bal trivial

/-- Joining concatenates; a prefix has every leaf at the bound, and a prefix of a prefix is the
prefix at the smaller bound; a selection maps the leaves or refuses an invalid range. Results are
balanced, with exact summaries, and nothing that stood before is changed. -/
theorem directory_operations (records : Records S)
    (clip : HistoryRange S → Int → Option (HistoryRange S)) (hclip : records.ClipContract clip)
    (select : HistoryRange S → Selected S) (s : Directory hash)
    (m n : Option (HistoryNode S D)) (xs ys : List (HistoryRange S)) (hm : Sequence s m xs)
    (hn : Sequence s n ys) :
    Returns (join m n) s (fun k s' => Sequence s' k (xs ++ ys)) ∧
    (∀ maximumId, (∀ r ∈ xs, records.Exact r) →
      Returns (prefixTo clip m maximumId) s fun k s' =>
        Sequence s' k (xs.filterMap (records.atBound maximumId)) ∧
        ∀ lower, lower ≤ maximumId → Returns (prefixTo clip k lower) s' fun k' s'' =>
          Sequence s'' k' (xs.filterMap (records.atBound lower))) ∧
    Ends (mapRanges select m) s
      (fun k s' => Sequence s' k (xs.filterMap (selectLeaf select)) ∧ Unchanged s s')
      (fun e s' => (e = "Invalid retained history range" ∧
        ∃ r ∈ xs, ∃ r', select r = .change r' ∧ validRange r' = false) ∧ Unchanged s s') := by
  refine ⟨(join_does (trust_available _) hm hn).returns, ?_, ?_⟩
  · intro maximumId hx
    refine Does.returns (Does.imp (prefixTo_does hclip hm hx maximumId) ?_)
    intro k s' _ hk
    refine ⟨hk, fun lower hle => ?_⟩
    have hx' : ∀ r ∈ xs.filterMap (records.atBound maximumId), records.Exact r := by
      intro r hr
      obtain ⟨r₀, -, hr₀⟩ := List.mem_filterMap.mp hr
      exact Records.exact_atBound hr₀
    have hcomp : (xs.filterMap (records.atBound maximumId)).filterMap (records.atBound lower) =
        xs.filterMap (records.atBound lower) := by
      rw [List.filterMap_filterMap]
      exact List.filterMap_congr fun r _ => Records.atBound_atBound hle r
    rw [← hcomp]
    exact (prefixTo_does hclip hk hx' lower).returns
  · refine Ends.imp (mapRanges_does hm) ?_ ?_
    · exact fun k s' h => ⟨h.2, h.1.unchanged⟩
    · exact fun e s' h => ⟨h.2, h.1.unchanged⟩

/-! ## One range of two records -/

def twoRecords : Records Unit where
  published _ := {10, 20}
  fingerprint _ _ := List.replicate 64 0x30
  bounded := by
    intro _ i hi
    simp only [Finset.mem_insert, Finset.mem_singleton] at hi
    rcases hi with rfl | rfl <;> decide
  hex := by
    intro _ _
    decide

def twoRange : HistoryRange Unit where
  source := ()
  minId := 10
  maxId := 20
  count := 2
  fingerprint := List.replicate 64 0x30

/-- A node of the range is joined to itself. -/
theorem directory_operations_pair :
    ∃ (s : Directory fun (_ : Nat) (_ : DraftNode Unit Unit) => ()) (m : HistoryNode Unit Unit),
    Returns (join (some m) (some m)) s fun k s' => Sequence s' k [twoRange, twoRange] := by
  have hrange : Does (fun _ => False) (range twoRange)
      (opened (fun _ _ => ()) (fun _ => none) 0 fun h => nomatch h) fun n s' =>
        Holds Available s' n (.leaf twoRange) := range_does (by decide)
  obtain ⟨m, s, -, hm, -⟩ := hrange.returns
  have hseq : Sequence s (some m) [twoRange] := .some hm fun _ => trivial
  exact ⟨s, m, (directory_operations twoRecords twoRecords.postgresClip
    twoRecords.postgresClip_contract (fun _ => .keep) s (some m) (some m) _ _ hseq hseq).1⟩

end Directory
end Durable
end PiCloud
