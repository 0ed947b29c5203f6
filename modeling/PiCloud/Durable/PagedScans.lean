import PiCloud.Durable.PublishedStorage

/-!
# Durable.PagedScans

The pages of a scan, put together, against the scan without a limit.

* `Storage.Ordered`: no entry has a later id than an entry of a conversation that continues after it.
* `idScans`, `entryScans`: a cursor leaves the records that its order of ids has after it.
* `paged_isSome`: the pages come to an end.
* `pages_complete_iff`: the pages of every limit are the scan exactly if its storage is ordered.
* `pages_lose`: they are not in a storage where a child conversation has an earlier entry.
-/

namespace PiCloud
namespace Durable
namespace Published

open Lib

/-! ## Positions along an ancestry -/

theorem idxOf_lt_of_sublist {l m : List Nat} (h : l.Sublist m) (hm : m.Nodup) {a b : Nat}
    (ha : a ∈ l) (hb : b ∈ l) (hlt : m.idxOf a < m.idxOf b) : l.idxOf a < l.idxOf b := by
  induction h with
  | slnil => cases ha
  | cons x h ih =>
    obtain ⟨hx, hm⟩ := List.nodup_cons.mp hm
    have hxa : x ≠ a := fun he => hx (he ▸ h.subset ha)
    have hxb : x ≠ b := fun he => hx (he ▸ h.subset hb)
    rw [List.idxOf_cons_ne _ hxa, List.idxOf_cons_ne _ hxb] at hlt
    exact ih hm ha hb (by omega)
  | cons_cons x h ih =>
    obtain ⟨hx, hm⟩ := List.nodup_cons.mp hm
    by_cases hxb : x = b
    · subst hxb
      rw [List.idxOf_cons_self] at hlt
      omega
    by_cases hxa : x = a
    · subst hxa
      rw [List.idxOf_cons_self, List.idxOf_cons_ne _ hxb]
      omega
    · rw [List.idxOf_cons_ne _ hxa, List.idxOf_cons_ne _ hxb] at hlt
      have := ih hm ((List.mem_cons.mp ha).resolve_left (Ne.symm hxa))
        ((List.mem_cons.mp hb).resolve_left (Ne.symm hxb)) (by omega)
      rw [List.idxOf_cons_ne _ hxa, List.idxOf_cons_ne _ hxb]
      omega

namespace Storage

variable {s : Storage}

theorem ancestryFrom_nodup {fuel : Nat} {visited : List Nat} {current : Nat} {through : Int}
    {path : List Ancestor} (h : s.ancestryFrom fuel visited current through = some path) :
    (path.map (·.conversationId)).Nodup ∧ ∀ row ∈ path, row.conversationId ∉ visited := by
  induction fuel generalizing visited current through path with
  | zero => cases h
  | succ fuel ih =>
    unfold ancestryFrom at h
    obtain ⟨hnew, h⟩ := guard_some h
    obtain ⟨r, -, h⟩ := bind_some h
    cases hp : r.parent with
    | none =>
      rw [hp] at h
      cases h
      refine ⟨List.nodup_singleton _, fun row hrow => ?_⟩
      cases List.mem_singleton.mp hrow
      exact hnew
    | some parent =>
      rw [hp] at h
      obtain ⟨rest, hrest, h⟩ := bind_some h
      cases h
      obtain ⟨hnodup, hout⟩ := ih hrest
      constructor
      · rw [List.map_cons, List.nodup_cons]
        refine ⟨fun hin => ?_, hnodup⟩
        obtain ⟨row, hrow, heq⟩ := List.mem_map.mp hin
        exact hout row hrow (heq ▸ List.mem_cons_self)
      · intro row hrow
        obtain rfl | hrow := List.mem_cons.mp hrow
        · exact hnew
        · exact fun hin => hout row hrow (List.mem_cons_of_mem _ hin)

end Storage

theorem rangesOf_map (path : List Ancestor) (minimum : Nat) (maximum : Int) :
    ((rangesOf path minimum maximum).map (·.conversationId)).Sublist
      (path.map (·.conversationId)) := by
  unfold rangesOf
  have h := (List.filter_sublist (l := path.map fun row =>
    { row with through := min maximum row.through })
    (p := fun row : Ancestor => (minimum : Int) ≤ row.through)).map (·.conversationId)
  rwa [List.map_map] at h

theorem rangeOf_any {ranges : List Ancestor} (h : (ranges.map (·.conversationId)).Nodup) {id : Nat}
    {p : Ancestor → Bool} :
    (rangeOf ranges id).any p = true ↔ ∃ row ∈ ranges, row.conversationId = id ∧ p row = true := by
  unfold rangeOf
  constructor
  · intro hany
    obtain ⟨row, hrow, hp⟩ := (Option.any_eq_true ..).mp hany
    have hid := List.find?_some hrow
    exact ⟨row, List.mem_of_find?_eq_some hrow, of_decide_eq_true hid, hp⟩
  · rintro ⟨row, hrow, heq, hp⟩
    obtain ⟨found, hfound⟩ : ∃ found, ranges.find? (fun row => row.conversationId = id) = some found :=
      Option.isSome_iff_exists.mp (List.find?_isSome.mpr ⟨row, hrow, decide_eq_true heq⟩)
    have hid := List.find?_some hfound
    rw [decide_eq_true_eq] at hid
    have hsame := List.inj_on_of_nodup_map h (List.mem_of_find?_eq_some hfound) hrow
      (hid.trans heq.symm)
    rw [hfound, hsame]
    exact hp

theorem inRange_iff {path : List Ancestor} (hp : (path.map (·.conversationId)).Nodup)
    {minimum : Nat} {maximum : Int} {r : IndexedRecord} :
    inRange (rangesOf path minimum maximum) minimum false r = true ↔
      r.kind = .entry ∧ minimum ≤ r.id ∧ (r.id : Int) ≤ maximum ∧
        ∃ row ∈ path, row.conversationId = r.conversationId ∧ (r.id : Int) ≤ row.through := by
  have hnodup := hp.sublist (rangesOf_map path minimum maximum)
  unfold inRange
  rw [Bool.not_false, Bool.true_or, Bool.and_true, Bool.and_eq_true, Bool.and_eq_true,
    rangeOf_any hnodup]
  simp only [decide_eq_true_eq]
  unfold rangesOf
  constructor
  · rintro ⟨⟨hkind, cut, hcut, heq, hid⟩, hmin⟩
    obtain ⟨row, hrow, rfl⟩ := List.mem_map.mp (List.mem_of_mem_filter hcut)
    dsimp only at heq hid
    exact ⟨hkind, hmin, by omega, row, hrow, heq, by omega⟩
  · rintro ⟨hkind, hmin, hmax, row, hrow, heq, hid⟩
    have hle : (r.id : Int) ≤ min maximum row.through := by omega
    refine ⟨⟨hkind, _, List.mem_filter.mpr ⟨List.mem_map_of_mem hrow, ?_⟩, heq, hle⟩, hmin⟩
    rw [decide_eq_true_eq]
    dsimp only
    omega

theorem findIdx_conversation (path : List Ancestor) (id : Nat) :
    path.findIdx (fun row => row.conversationId = id) = (path.map (·.conversationId)).idxOf id := by
  unfold List.idxOf
  rw [List.findIdx_map]
  rfl

theorem entryKey_lt {path : List Ancestor} {a b : IndexedRecord} :
    entryKey path a < entryKey path b ↔
      (path.map (·.conversationId)).idxOf a.conversationId <
          (path.map (·.conversationId)).idxOf b.conversationId ∨
        (path.map (·.conversationId)).idxOf a.conversationId =
          (path.map (·.conversationId)).idxOf b.conversationId ∧ b.id < a.id := by
  unfold entryKey
  rw [Prod.Lex.toLex_lt_toLex, findIdx_conversation, findIdx_conversation,
    OrderDual.toDual_lt_toDual]

theorem entryKey_nodup {path : List Ancestor} {rows : List IndexedRecord}
    (h : (rows.map (·.id)).Nodup) : (rows.map (entryKey path)).Nodup := by
  refine List.Nodup.of_map (fun k => OrderDual.ofDual (ofLex k).2) ?_
  rwa [List.map_map]

theorem sortBy_ranges {path : List Ancestor} (hp : (path.map (·.conversationId)).Nodup)
    {minimum : Nat} {maximum : Int} {rows : List IndexedRecord} (h : (rows.map (·.id)).Nodup)
    (hin : ∀ r ∈ rows, inRange (rangesOf path minimum maximum) minimum false r = true) :
    sortBy (entryKey (rangesOf path minimum maximum)) rows = sortBy (entryKey path) rows := by
  refine sortBy_eq (perm_sortBy rows) ?_
  have hsub := rangesOf_map path minimum maximum
  have hmem : ∀ r ∈ rows,
      r.conversationId ∈ (rangesOf path minimum maximum).map (·.conversationId) := by
    intro r hr
    have hr := hin r hr
    unfold inRange at hr
    rw [Bool.and_eq_true, Bool.and_eq_true, Bool.and_eq_true, rangeOf_any (hp.sublist hsub)] at hr
    obtain ⟨⟨⟨-, row, hrow, heq, -⟩, -⟩, -⟩ := hr
    exact List.mem_map.mpr ⟨row, hrow, heq⟩
  refine (pairwise_sortBy (entryKey_nodup h)).imp_of_mem fun {a b} ha hb hlt => ?_
  have ha := hmem a (mem_sortBy.mp ha)
  have hb := hmem b (mem_sortBy.mp hb)
  rw [entryKey_lt] at hlt ⊢
  obtain hlt | ⟨heq, hlt⟩ := hlt
  · exact .inl (idxOf_lt_of_sublist hsub hp ha hb hlt)
  · exact .inr ⟨by rw [(List.idxOf_inj (hsub.subset ha)).mp heq], hlt⟩

/-! ## One page -/

namespace Storage

variable {s : Storage}

theorem cold_append (a b : List IndexedRecord) : s.cold (a ++ b) = s.cold a ++ s.cold b := by
  unfold cold uncovered
  split
  · rfl
  · exact List.filter_append _ _

theorem mem_cold {l : List IndexedRecord} {r : IndexedRecord} (h : r ∈ s.cold l) :
    r ∈ l ∧ r.id ∉ s.records.map (·.id) := by
  unfold cold uncovered at h
  split at h
  · cases h
  · obtain ⟨hr, hout⟩ := List.mem_filter.mp h
    exact ⟨hr, of_decide_eq_true hout⟩

theorem rows_ids : (s.rows.map (·.id)).Nodup := by
  unfold rows
  rw [← cold_append, List.map_append, List.nodup_append]
  have hcold : (s.cold (s.owned ++ s.inherited)).Sublist (s.owned ++ s.inherited) := by
    unfold cold uncovered
    split
    · exact List.nil_sublist _
    · exact List.filter_sublist
  refine ⟨s.distinct, s.coldDistinct.sublist (hcold.map _), ?_⟩
  rintro a ha b hb rfl
  obtain ⟨r, hr, rfl⟩ := List.mem_map.mp hb
  exact (mem_cold hr).2 ha

theorem mem_rows {r : IndexedRecord} (h : r ∈ s.rows) : r ∈ s.records ++ (s.owned ++ s.inherited) := by
  unfold rows at h
  rw [← cold_append] at h
  obtain h | h := List.mem_append.mp h
  · exact List.mem_append_left _ h
  · exact List.mem_append_right _ (mem_cold h).1

theorem rows_safe {r : IndexedRecord} (h : r ∈ s.rows) : r.id ≤ maxSafeInteger :=
  s.safe r (mem_rows h)

theorem length_rows : s.rows.length ≤ s.size := by
  have hcold : ∀ l, (s.cold l).length ≤ l.length := by
    intro l
    unfold cold uncovered
    split
    · exact Nat.zero_le _
    · exact List.length_filter_le _ _
  have := hcold s.owned
  have := hcold s.inherited
  unfold rows size
  simp only [List.length_append]
  omega

/-! ## Scans by id -/

theorem filter_cold_nil {query : RecordQuery} (h : query.minId.any (s.coldNextId ≤ ·) = true) :
    (s.cold (s.owned ++ s.inherited)).filter (matchesRecord · query) = [] := by
  obtain ⟨least, hleast, hle⟩ := (Option.any_eq_true ..).mp h
  rw [decide_eq_true_eq] at hle
  refine List.filter_eq_nil_iff.mpr fun r hr hmatch => ?_
  obtain ⟨hr, hout⟩ := mem_cold hr
  have hbelow := (s.below r hr).resolve_right hout
  unfold matchesRecord at hmatch
  rw [hleast] at hmatch
  simp only [Bool.and_eq_true, decide_eq_true_eq, Option.all_some] at hmatch
  omega

theorem scanRows_eq {query : RecordQuery} (hd : query.descending = false) {limit : Nat}
    (hl : 1 ≤ limit) (hm : limit ≤ maxSafeInteger) :
    s.scanRows query limit =
      some ((sortBy (·.id) (s.rows.filter (matchesRecord · query))).take limit) := by
  have hfilter : ((s.rows.filter (matchesRecord · query)).map (·.id)).Nodup :=
    s.rows_ids.sublist (List.filter_sublist.map _)
  have hswap : (s.rows.filter (matchesRecord · query)).Perm
      ((s.cold (s.owned ++ s.inherited)).filter (matchesRecord · query) ++
        s.records.filter (matchesRecord · query)) := by
    unfold rows
    rw [← cold_append, ← List.filter_append]
    exact List.perm_append_comm.filter _
  have hvalid : ¬ (decide (limit < 1) || decide (maxSafeInteger < limit)) = true := by
    rw [Bool.or_eq_true, decide_eq_true_eq, decide_eq_true_eq]
    omega
  have horder : ∀ l, inOrder query.descending l = sortBy (·.id) l := by
    intro l
    rw [hd]
    rfl
  rw [sortBy_perm hswap hfilter]
  unfold scanRows projectionScan
  rw [if_neg hvalid]
  dsimp only
  rw [horder, horder]
  split
  · rename_i hskip
    have hnil : (s.cold (s.owned ++ s.inherited)).filter (matchesRecord · query) = [] := by
      obtain hzero | hskip := (Bool.or_eq_true ..).mp hskip
      · unfold cold
        rw [if_pos (of_decide_eq_true hzero)]
        rfl
      · exact filter_cold_nil hskip
    rw [hnil]
  · rename_i hread
    have hseq : ¬ s.coldSeq = 0 := fun hzero => hread (by rw [decide_eq_true hzero, Bool.true_or])
    have hcold : s.cold (s.owned ++ s.inherited) = s.uncovered (s.owned ++ s.inherited) :=
      if_neg hseq
    rw [hcold] at hswap ⊢
    rw [take_sortBy ((hswap.map _).nodup_iff.mp hfilter)]

theorem cursorId_some {after : Nat} (h : after ≤ maxSafeInteger) :
    cursorId (some after) = some (some after) :=
  if_pos h

theorem matchesRecord_minId (query : RecordQuery) (hq : query.minId = none) (least : Nat)
    (r : IndexedRecord) :
    matchesRecord r { query with minId := some least } =
      (decide (least ≤ r.id) && matchesRecord r query) := by
  unfold matchesRecord
  simp only [hq, Option.all_some, Option.all_none, Bool.and_true]
  simp only [Bool.and_left_comm, Bool.and_assoc]

theorem scanKind_eq (kind : RecordKind) (fields : List (Field × FieldValue))
    (point : Option DocumentPoint) {limit : Nat} (hl : limit < maxSafeInteger) {cursor : Option Nat}
    (hc : cursorId cursor = some cursor) :
    s.scanKind kind fields point limit cursor =
      some (Page.cut (·.id) (((s.allKind kind fields point).filter
        fun r => cursor.elim 0 (· + 1) ≤ r.id).take (limit + 1)) limit) := by
  unfold scanKind
  rw [hc, Option.bind_eq_bind, Option.bind_some, scanRows_eq rfl (by omega) hl,
    Option.bind_eq_bind, Option.bind_some]
  unfold allKind page
  have hnodup : ((s.rows.filter (matchesRecord · { kind, fields, point })).map (·.id)).Nodup :=
    s.rows_ids.sublist (List.filter_sublist.map _)
  rw [← sortBy_filter hnodup, List.filter_filter]
  have hfilter : s.rows.filter
        (matchesRecord · { kind, fields, point, minId := some (cursor.elim 0 (· + 1)) }) =
      s.rows.filter fun r =>
        decide (cursor.elim 0 (· + 1) ≤ r.id) && matchesRecord r { kind, fields, point } :=
    List.filter_congr fun r _ => matchesRecord_minId { kind, fields, point } rfl _ r
  rw [hfilter]

theorem idScans (kind : RecordKind) (fields : List (Field × FieldValue))
    (point : Option DocumentPoint) {limit : Nat} (hl : limit < maxSafeInteger) :
    Scans (s.scanKind kind fields point limit) (·.id) (· < ·) limit (s.allKind kind fields point) where
  start := by
    rw [scanKind_eq kind fields point hl rfl,
      List.filter_eq_self.mpr fun r _ => decide_eq_true (Nat.zero_le r.id)]
  next := by
    intro x hx
    have hx := rows_safe (List.mem_of_mem_filter (mem_sortBy.mp hx))
    exact scanKind_eq kind fields point hl (cursorId_some hx)

theorem allKind_sorted (kind : RecordKind) (fields : List (Field × FieldValue))
    (point : Option DocumentPoint) :
    (s.allKind kind fields point).Pairwise fun a b => a.id < b.id :=
  pairwise_sortBy (s.rows_ids.sublist (List.filter_sublist.map _))

/-! ## Entries along an ancestry -/

theorem scanEntryRanges_eq (hseq : ¬ s.coldSeq = 0) (ranges : List Ancestor) (limit minimum : Nat)
    (head : Bool) :
    s.scanEntryRanges ranges limit minimum head =
      (sortBy (entryKey ranges)
        ((s.cold s.owned ++ s.cold s.inherited).filter (inRange ranges minimum head))).take limit := by
  have hcold : ∀ l, s.cold l = s.uncovered l := fun l => if_neg hseq
  have hnodup : (((s.cold s.owned ++ s.cold s.inherited).filter
      (inRange ranges minimum head)).map (entryKey ranges)).Nodup := by
    have hids := s.rows_ids
    unfold rows at hids
    rw [List.map_append] at hids
    exact entryKey_nodup ((List.nodup_append.mp hids).2.1.sublist (List.filter_sublist.map _))
  rw [List.filter_append] at hnodup ⊢
  unfold scanEntryRanges
  split
  · rename_i hempty
    rw [List.isEmpty_iff] at hempty
    subst hempty
    have hnone : ∀ l : List IndexedRecord, l.filter (inRange [] minimum head) = [] := by
      intro l
      refine List.filter_eq_nil_iff.mpr fun r _ hr => ?_
      unfold inRange at hr
      rw [Bool.and_eq_true, Bool.and_eq_true, Bool.and_eq_true] at hr
      cases hr.1.1.2
    rw [hnone, hnone]
    exact (List.take_nil ..).symm
  · dsimp only
    rw [hcold, hcold] at hnodup ⊢
    exact take_sortBy_append hnodup limit

def visible (s : Storage) (query : EntryQuery) (path : List Ancestor) : List IndexedRecord :=
  s.rows.filter (inRange (rangesOf path (query.minEntryId.getD 0) (query.maxEntryId.getD maxSafeInteger))
    (query.minEntryId.getD 0) false)

theorem visible_ids (query : EntryQuery) (path : List Ancestor) :
    ((s.visible query path).map (·.id)).Nodup :=
  s.rows_ids.sublist (List.filter_sublist.map _)

theorem allEntries_eq {query : EntryQuery} {path : List Ancestor}
    (hpath : s.ancestry query.conversationId = some path)
    (hp : (path.map (·.conversationId)).Nodup) :
    s.allEntries query = some (sortBy (entryKey path) (s.visible query path)) := by
  unfold allEntries
  rw [hpath, Option.bind_eq_bind, Option.bind_some]
  have hin : ∀ r ∈ s.visible query path, _ := fun r hr => (List.mem_filter.mp hr).2
  rw [← sortBy_ranges hp (visible_ids query path) hin]
  rfl

theorem entries_eq {query : EntryQuery} {path : List Ancestor}
    (hpath : s.ancestry query.conversationId = some path)
    (hp : (path.map (·.conversationId)).Nodup) {cursor : Option Nat}
    (hc : cursorId cursor = some cursor) (limit : Nat) :
    s.entries query limit cursor false =
      some (((sortBy (entryKey path) (s.visible query path)).filter
        fun r => r.id < cursor.getD (maxSafeInteger + 1)).take limit) := by
  unfold entries
  rw [hc, Option.bind_eq_bind, Option.bind_some, hpath, Option.bind_eq_bind, Option.bind_some]
  dsimp only
  generalize hmax : (min (query.maxEntryId.getD maxSafeInteger : Int)
    ((cursor.getD (maxSafeInteger + 1) : Nat) - 1)) = maximum
  generalize hmin : query.minEntryId.getD 0 = minimum
  have hids : ((s.rows.filter (inRange (rangesOf path minimum maximum) minimum false)).map
      (·.id)).Nodup := s.rows_ids.sublist (List.filter_sublist.map _)
  -- the overlay over the first rows of the durable records
  have hmerge : (sortBy (entryKey (rangesOf path minimum maximum))
        (s.records.filter (inRange (rangesOf path minimum maximum) minimum false) ++
          if s.coldSeq = 0 then []
          else s.scanEntryRanges (rangesOf path minimum maximum) limit minimum false)).take limit =
      (sortBy (entryKey (rangesOf path minimum maximum))
        (s.rows.filter (inRange (rangesOf path minimum maximum) minimum false))).take limit := by
    have hrows := hids
    unfold rows at hids ⊢
    rw [List.filter_append] at hids ⊢
    by_cases hseq : s.coldSeq = 0
    · have hcold : ∀ l, s.cold l = [] := fun l => if_pos hseq
      rw [if_pos hseq, hcold, hcold]
      rfl
    · rw [if_neg hseq, scanEntryRanges_eq hseq, take_sortBy_right (entryKey_nodup hids)]
  have hcursor : s.rows.filter (inRange (rangesOf path minimum maximum) minimum false) =
      (s.visible query path).filter fun r => r.id < cursor.getD (maxSafeInteger + 1) := by
    unfold visible
    rw [List.filter_filter]
    refine List.filter_congr fun r _ => ?_
    rw [Bool.eq_iff_iff, Bool.and_eq_true, inRange_iff hp, inRange_iff hp, decide_eq_true_eq, hmin]
    constructor
    · rintro ⟨hkind, hleast, hle, hrow⟩
      exact ⟨by omega, hkind, hleast, by omega, hrow⟩
    · rintro ⟨hlt, hkind, hleast, hle, hrow⟩
      exact ⟨hkind, hleast, by omega, hrow⟩
  rw [hmerge, sortBy_ranges hp hids fun r hr => (List.mem_filter.mp hr).2, hcursor,
    sortBy_filter (entryKey_nodup (visible_ids query path))]

theorem entryScans {query : EntryQuery} {path : List Ancestor}
    (hpath : s.ancestry query.conversationId = some path)
    (hp : (path.map (·.conversationId)).Nodup) (limit : Nat) :
    Scans (s.scanEntries limit · query) (·.id) (· > ·) limit
      (sortBy (entryKey path) (s.visible query path)) where
  start := by
    have hall : ∀ r ∈ sortBy (entryKey path) (s.visible query path),
        decide (r.id < maxSafeInteger + 1) = true := fun r hr =>
      decide_eq_true (Nat.lt_succ_of_le (rows_safe (List.mem_of_mem_filter (mem_sortBy.mp hr))))
    unfold scanEntries
    rw [entries_eq hpath hp rfl, Option.getD_none, List.filter_eq_self.mpr hall]
    rfl
  next := by
    intro x hx
    have hx := rows_safe (List.mem_of_mem_filter (mem_sortBy.mp hx))
    unfold scanEntries
    rw [entries_eq hpath hp (cursorId_some hx), Option.getD_some]
    rfl

/-! ## All pages -/

/-- Along an ancestry ids only fall: no entry that a scan finds is later than one of a conversation
that continues from it. -/
def Ordered (s : Storage) : Scan → Prop
  | .entries query => ∀ path, s.ancestry query.conversationId = some path →
    path.Pairwise fun near far => ∀ e ∈ s.visible query path, ∀ f ∈ s.visible query path,
      e.conversationId = near.conversationId → f.conversationId = far.conversationId → f.id < e.id
  | _ => True

variable {query : EntryQuery} {path : List Ancestor}

theorem ancestry_nodup {id : Nat} (h : s.ancestry id = some path) :
    (path.map (·.conversationId)).Nodup :=
  (ancestryFrom_nodup h).1

theorem mem_path_of_visible (hp : (path.map (·.conversationId)).Nodup) {r : IndexedRecord}
    (h : r ∈ s.visible query path) : r.conversationId ∈ path.map (·.conversationId) := by
  obtain ⟨-, -, -, row, hrow, heq, -⟩ := (inRange_iff hp).mp (List.mem_filter.mp h).2
  exact List.mem_map.mpr ⟨row, hrow, heq⟩

theorem sorted_of_ordered (hp : (path.map (·.conversationId)).Nodup)
    (h : path.Pairwise fun near far => ∀ e ∈ s.visible query path, ∀ f ∈ s.visible query path,
      e.conversationId = near.conversationId → f.conversationId = far.conversationId → f.id < e.id) :
    (sortBy (entryKey path) (s.visible query path)).Pairwise fun a b => a.id > b.id := by
  refine (pairwise_sortBy (entryKey_nodup (visible_ids query path))).imp_of_mem
    fun {a b} ha hb hlt => ?_
  have ha := mem_sortBy.mp ha
  have hb := mem_sortBy.mp hb
  obtain hlt | ⟨-, hlt⟩ := entryKey_lt.mp hlt
  · have hfirst := List.idxOf_lt_length_of_mem (mem_path_of_visible hp ha)
    have hsecond := List.idxOf_lt_length_of_mem (mem_path_of_visible hp hb)
    have hnear := List.getElem_idxOf hfirst
    have hfar := List.getElem_idxOf hsecond
    rw [List.getElem_map] at hnear hfar
    rw [List.length_map] at hfirst hsecond
    exact List.pairwise_iff_getElem.mp h _ _ hfirst hsecond hlt a ha b hb hnear.symm hfar.symm
  · exact hlt

theorem ordered_of_sorted (hp : (path.map (·.conversationId)).Nodup)
    (h : (sortBy (entryKey path) (s.visible query path)).Pairwise fun a b => a.id > b.id) :
    path.Pairwise fun near far => ∀ e ∈ s.visible query path, ∀ f ∈ s.visible query path,
      e.conversationId = near.conversationId → f.conversationId = far.conversationId →
        f.id < e.id := by
  have hnodup : ((s.visible query path).map (entryKey path)).Nodup := entryKey_nodup (visible_ids query path)
  have hkeys := pairwise_sortBy hnodup
  refine List.pairwise_iff_getElem.mpr fun i j hi hj hij e he f hf hnear hfar => ?_
  have hpos : ∀ k (hk : k < path.length), (path.map (·.conversationId)).idxOf path[k].conversationId = k := by
    intro k hk
    have := hp.idxOf_getElem k (by rwa [List.length_map])
    rwa [List.getElem_map] at this
  have hlt : entryKey path e < entryKey path f := by
    rw [entryKey_lt, hnear, hfar, hpos i hi, hpos j hj]
    exact .inl hij
  have he : e ∈ sortBy (entryKey path) (s.visible query path) := mem_sortBy.mpr he
  have hf : f ∈ sortBy (entryKey path) (s.visible query path) := mem_sortBy.mpr hf
  obtain ⟨m, hm, rfl⟩ := List.getElem_of_mem he
  obtain ⟨n, hn, rfl⟩ := List.getElem_of_mem hf
  rcases Nat.lt_trichotomy m n with hmn | rfl | hnm
  · exact List.pairwise_iff_getElem.mp h m n hm hn hmn
  · exact absurd hlt (lt_irrefl _)
  · exact absurd hlt (lt_asymm (List.pairwise_iff_getElem.mp hkeys n m hn hm hnm))

theorem length_visible : (sortBy (entryKey path) (s.visible query path)).length < s.size + 1 := by
  have := List.length_filter_le (inRange (rangesOf path (query.minEntryId.getD 0)
    (query.maxEntryId.getD maxSafeInteger)) (query.minEntryId.getD 0) false) s.rows
  have := s.length_rows
  rw [length_sortBy]
  unfold visible
  omega

theorem ancestry_none (h : s.ancestry query.conversationId = none) (limit : Nat) :
    s.scan limit none (.entries query) = none ∧ s.paged (.entries query) limit = none ∧
      s.all (.entries query) = none := by
  have hscan : s.scan limit none (.entries query) = none := by
    show s.scanEntries limit none query = none
    unfold scanEntries entries
    simp only [h, Option.bind_eq_bind, Option.bind_none]
    rfl
  refine ⟨hscan, ?_, ?_⟩
  · unfold paged
    rw [follow_add_one, hscan]
    rfl
  · show s.allEntries query = none
    unfold allEntries
    rw [h]
    rfl

theorem length_allKind (kind : RecordKind) (fields : List (Field × FieldValue))
    (point : Option DocumentPoint) : (s.allKind kind fields point).length < s.size + 1 := by
  have := List.length_filter_le (matchesRecord · { kind, fields, point }) s.rows
  have := s.length_rows
  unfold allKind
  rw [length_sortBy]
  omega

theorem paged_kind (kind : RecordKind) (fields : List (Field × FieldValue))
    (point : Option DocumentPoint) {limit : Nat} (hl : 1 ≤ limit) (hm : limit < maxSafeInteger) :
    follow (s.scanKind kind fields point limit) (s.size + 1) none =
      some (s.allKind kind fields point) :=
  follow_complete (idScans kind fields point hm) (fun _ _ => Nat.lt_asymm) hl
    (allKind_sorted kind fields point) (length_allKind kind fields point)

/-- The pages of every limit are the scan exactly in an ordered storage. -/
theorem pages_complete_iff (s : Storage) (scan : Scan) :
    (∀ limit, 1 ≤ limit → limit < maxSafeInteger → s.paged scan limit = s.all scan) ↔
      s.Ordered scan := by
  cases scan with
  | conversations query => exact iff_of_true (fun _ => paged_kind _ _ _) trivial
  | entries query =>
    cases hpath : s.ancestry query.conversationId with
    | none =>
      refine iff_of_true (fun limit _ _ => ?_) fun path hsome => ?_
      · obtain ⟨-, hpaged, hall⟩ := ancestry_none hpath limit
        rw [hpaged, hall]
      · cases hpath.symm.trans hsome
    | some path =>
      have hp := ancestry_nodup hpath
      have hall : s.all (.entries query) = _ := allEntries_eq hpath hp
      constructor
      · intro h path' hpath'
        cases hpath.symm.trans hpath'
        have hone := h 1 (Nat.le_refl 1) (by decide)
        rw [hall] at hone
        exact ordered_of_sorted hp
          (follow_ordered (entryScans hpath hp 1) (fun _ _ _ hab hbc => Nat.lt_trans hbc hab) hone)
      · intro h limit hl _
        rw [hall]
        exact follow_complete (entryScans hpath hp limit) (fun _ _ => Nat.lt_asymm) hl
          (sorted_of_ordered hp (h path hpath)) length_visible
  | tasks query => exact iff_of_true (fun _ => paged_kind _ _ _) trivial
  | submissions query => exact iff_of_true (fun _ => paged_kind _ _ _) trivial
  | documents query => exact iff_of_true (fun _ => paged_kind _ _ _) trivial

/-- The pages come to an end, whatever they leave out. -/
theorem paged_isSome (s : Storage) (scan : Scan) {limit : Nat} (hl : 1 ≤ limit)
    (hm : limit < maxSafeInteger) : (s.paged scan limit).isSome = (s.all scan).isSome := by
  have hkind : ∀ kind fields point,
      (follow (s.scanKind kind fields point limit) (s.size + 1) none).isSome = true := by
    intro kind fields point
    rw [paged_kind kind fields point hl hm]
    rfl
  cases scan with
  | conversations query => exact hkind ..
  | entries query =>
    cases hpath : s.ancestry query.conversationId with
    | none =>
      obtain ⟨-, hpaged, hall⟩ := ancestry_none hpath limit
      rw [hpaged, hall]
    | some path =>
      have hp := ancestry_nodup hpath
      have hall : s.all (.entries query) = _ := allEntries_eq hpath hp
      rw [hall]
      exact follow_isSome (entryScans hpath hp limit) (fun _ _ _ hab hbc => Nat.lt_trans hbc hab)
        (fun _ => Nat.lt_irrefl _) hl length_visible
  | tasks query => exact hkind ..
  | submissions query => exact hkind ..
  | documents query => exact hkind ..

end Storage

/-- Entry 15 was reserved before the fork at entry 20, and committed after it. -/
def reservedEarly : Storage where
  records :=
    [{ id := 1, kind := .conversation },
      { id := 10, kind := .entry, conversationId := 1 },
      { id := 20, kind := .entry, conversationId := 1 },
      { id := 21, kind := .conversation, parent := some { conversationId := 1, entry := 20 } },
      { id := 15, kind := .entry, conversationId := 21 }]
  distinct := by decide
  coldDistinct := by decide
  below := by decide
  safe := by decide

theorem paged_isSome_reservedEarly :
    (reservedEarly.paged (.entries { conversationId := 21 }) 1).isSome =
      (reservedEarly.all (.entries { conversationId := 21 })).isSome :=
  Storage.paged_isSome _ _ (by decide) (by decide)

/-- Pages of one entry leave out entry 20. -/
theorem pages_lose : ¬ ∀ (s : Storage) (scan : Scan) (limit : Nat), 1 ≤ limit →
    limit < maxSafeInteger → s.paged scan limit = s.all scan := by
  intro h
  have hpages := congrArg (Option.map (List.map (·.id)))
    (h reservedEarly (.entries { conversationId := 21 }) 1 (by decide) (by decide))
  revert hpages
  decide

end Published
end Durable
end PiCloud
