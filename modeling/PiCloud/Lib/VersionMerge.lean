import PiCloud.Lib.InsertionMap

/-!
# Lib.VersionMerge

Merging lists of versions: of the versions of one identity the latest stays, in the place of the
first.

* `addKeys`, `addAll`: the keys that lists add to others, in the order of their first occurrence.
* `Renewal`: what an identity, a version and a renewed version are.
* `Renewal.mergeOne`, `mergeAll`: the merge; `Renewal.Merged`: what it holds of a list.
* `mergeAll_again`: merging a list once more changes nothing.
* `mergeAll_each`: what is true of every value where a later version always renews.
-/

namespace PiCloud
namespace Lib

/-! ## Keys in the order of their first occurrence -/

section Keys

variable {κ : Type} [DecidableEq κ]

def addKeys (ks xs : List κ) : List κ := xs.foldl (fun ks x => if x ∈ ks then ks else ks ++ [x]) ks

def addAll (lists : List (List κ)) : List κ := lists.foldl addKeys []

theorem addKeys_cons (ks xs : List κ) (x : κ) :
    addKeys ks (x :: xs) = addKeys (if x ∈ ks then ks else ks ++ [x]) xs := rfl

theorem addKeys_append (ks xs ys : List κ) : addKeys ks (xs ++ ys) = addKeys (addKeys ks xs) ys :=
  List.foldl_append

theorem addAll_flatten (lists : List (List κ)) : addAll lists = addKeys [] lists.flatten := by
  have hfold : ∀ (lists : List (List κ)) (ks : List κ),
      lists.foldl addKeys ks = addKeys ks lists.flatten := by
    intro lists
    induction lists with
    | nil => exact fun _ => rfl
    | cons l lists ih =>
      intro ks
      rw [List.foldl_cons, ih, List.flatten_cons, addKeys_append]
  exact hfold lists []

theorem mem_addKeys {ks xs : List κ} {y : κ} : y ∈ addKeys ks xs ↔ y ∈ ks ∨ y ∈ xs := by
  induction xs generalizing ks with
  | nil => simp [addKeys]
  | cons x xs ih =>
    rw [addKeys_cons, ih, List.mem_cons]
    split
    · rename_i hx
      constructor
      · exact fun h => h.imp_right .inr
      · rintro (h | rfl | h)
        · exact .inl h
        · exact .inl hx
        · exact .inr h
    · rw [List.mem_append, List.mem_singleton, or_assoc]

theorem addKeys_fresh {ks xs : List κ} (hxs : xs.Nodup) (hnew : ∀ x ∈ xs, x ∉ ks) :
    addKeys ks xs = ks ++ xs := by
  induction xs generalizing ks with
  | nil => exact (List.append_nil ks).symm
  | cons x xs ih =>
    rw [List.nodup_cons] at hxs
    rw [addKeys_cons, if_neg (hnew x (List.mem_cons_self ..)), ih hxs.2, List.append_assoc,
      List.singleton_append]
    intro y hy hin
    obtain hin | hyx := List.mem_append.mp hin
    · exact hnew y (List.mem_cons_of_mem _ hy) hin
    · exact hxs.1 (List.mem_singleton.mp hyx ▸ hy)

theorem pairwise_addKeys {older : κ → κ → Prop} {ks xs : List κ} (hks : ks.Pairwise older)
    (hxs : xs.Pairwise older) (hnew : ∀ x ∈ ks, ∀ y ∈ xs, y ∉ ks → older x y) :
    (addKeys ks xs).Pairwise older := by
  induction xs generalizing ks with
  | nil => exact hks
  | cons x xs ih =>
    rw [List.pairwise_cons] at hxs
    rw [addKeys_cons]
    split
    · exact ih hks hxs.2 fun z hz y hy => hnew z hz y (List.mem_cons_of_mem _ hy)
    · rename_i hx
      refine ih ?_ hxs.2 ?_
      · refine List.pairwise_append.mpr ⟨hks, List.pairwise_singleton .., ?_⟩
        intro z hz w hw
        rw [List.mem_singleton.mp hw]
        exact hnew z hz x (List.mem_cons_self ..) hx
      · intro z hz y hy hout
        have hyks : y ∉ ks := fun h => hout (List.mem_append_left _ h)
        obtain hz | hz := List.mem_append.mp hz
        · exact hnew z hz y (List.mem_cons_of_mem _ hy) hyks
        · rw [List.mem_singleton.mp hz]
          exact hxs.1 y hy

def InOrder (older : κ → κ → Prop) (lists : List (List κ)) : Prop :=
  (∀ l ∈ lists, l.Pairwise older) ∧
    lists.Pairwise fun l l' => ∀ x ∈ l, ∀ y ∈ l', y ∉ l → older x y

theorem pairwise_addAll {older : κ → κ → Prop} {lists : List (List κ)} (h : InOrder older lists) :
    (addAll lists).Pairwise older := by
  have hfold : ∀ (lists : List (List κ)) (ks : List κ), InOrder older lists → ks.Pairwise older →
      (∀ l ∈ lists, ∀ x ∈ ks, ∀ y ∈ l, y ∉ ks → older x y) →
      (lists.foldl addKeys ks).Pairwise older := by
    intro lists
    induction lists with
    | nil => exact fun _ _ hks _ => hks
    | cons l lists ih =>
      rintro ks ⟨hsorted, hlater⟩ hks hnew
      rw [List.pairwise_cons] at hlater
      refine ih _ ⟨fun l' hl' => hsorted l' (List.mem_cons_of_mem _ hl'), hlater.2⟩
        (pairwise_addKeys hks (hsorted l (List.mem_cons_self ..)) (hnew l (List.mem_cons_self ..))) ?_
      intro l' hl' x hx y hy hout
      obtain hx | hx := mem_addKeys.mp hx
      · exact hnew l' (List.mem_cons_of_mem _ hl') x hx y hy fun h => hout (mem_addKeys.mpr (.inl h))
      · exact hlater.1 l' hl' x hx y hy fun h => hout (mem_addKeys.mpr (.inr h))
  exact hfold lists [] h .nil (fun _ _ _ hx => nomatch hx)

end Keys

namespace InsertionMap

variable {κ ν : Type} [DecidableEq κ]

def keys (m : InsertionMap κ ν) : List κ := m.entries.map Prod.fst

def values (m : InsertionMap κ ν) : List ν := m.entries.map Prod.snd

theorem mem_keys {m : InsertionMap κ ν} {k : κ} : k ∈ m.keys ↔ ∃ v, m.get k = some v := by
  rw [← Option.ne_none_iff_exists', ne_eq, get_eq_none, not_not]
  rfl

theorem mem_values {m : InsertionMap κ ν} {v : ν} : v ∈ m.values ↔ ∃ k, m.get k = some v := by
  unfold values
  rw [List.mem_map]
  constructor
  · rintro ⟨⟨k, v⟩, he, rfl⟩
    exact ⟨k, mem_entries.mp he⟩
  · rintro ⟨k, hk⟩
    exact ⟨(k, v), mem_entries.mpr hk, rfl⟩

omit [DecidableEq κ] in
theorem ext_entries {m m' : InsertionMap κ ν} (h : m.entries = m'.entries) : m = m' := by
  obtain ⟨entries, hnodup⟩ := m
  obtain ⟨entries', hnodup'⟩ := m'
  cases h
  rfl

theorem keys_set (m : InsertionMap κ ν) (k : κ) (v : ν) :
    (m.set k v).keys = if k ∈ m.keys then m.keys else m.keys ++ [k] := by
  unfold set keys
  split
  · rename_i hnone
    rw [if_neg (get_eq_none.mp hnone)]
    unfold push
    rw [List.map_append]
    rfl
  · rename_i hsome
    rw [if_pos (by_contra fun h => hsome (get_eq_none.mpr h))]
    unfold replace
    rw [replace_keys]

theorem set_same {m : InsertionMap κ ν} {k : κ} {v : ν} (h : m.get k = some v) : m.set k v = m := by
  refine ext_entries ?_
  unfold set
  rw [dif_neg (by rw [h]; nofun)]
  unfold replace
  dsimp only
  conv_rhs => rw [← List.map_id m.entries]
  refine List.map_congr_left fun e he => ?_
  split
  · rename_i hek
    have hget := mem_entries.mp he
    rw [hek, h] at hget
    cases hget
    rw [← hek]
    rfl
  · rfl

end InsertionMap

/-! ## Versions -/

/-- Versions of a kind: `renew prior x` is the version `x` in the place of `prior`. -/
structure Renewal (κ ν μ : Type) where
  identity : ν → κ
  sequence : ν → Nat
  /-- what renewing does not change -/
  version : ν → μ
  renew : ν → ν → ν
  Good : ν → Prop
  identity_renew : ∀ {p x}, Good p → Good x → identity p = identity x →
    identity (renew p x) = identity x
  good_renew : ∀ {p x}, Good p → Good x → identity p = identity x → Good (renew p x)
  sequence_renew : ∀ p x, sequence (renew p x) = sequence x
  version_renew : ∀ p x, version (renew p x) = version x
  renew_self : ∀ {x}, Good x → renew x x = x
  renew_again : ∀ {p x}, Good p → Good x → identity p = identity x → renew (renew p x) x = renew p x

namespace Renewal

variable {κ ν μ : Type} [DecidableEq κ] (r : Renewal κ ν μ)

def mergeOne (m : InsertionMap κ ν) (x : ν) : InsertionMap κ ν :=
  match m.get (r.identity x) with
  | none => m.set (r.identity x) x
  | some prior =>
    if r.sequence prior ≤ r.sequence x then m.set (r.identity x) (r.renew prior x) else m

def mergeAll (m : InsertionMap κ ν) (xs : List ν) : InsertionMap κ ν := xs.foldl r.mergeOne m

def index (xs : List ν) : InsertionMap κ ν := xs.foldl (fun m x => m.set (r.identity x) x) {}

/-- The map is what the versions of a list come to. -/
structure Merged (m : InsertionMap κ ν) (xs : List ν) : Prop where
  held : ∀ {k v}, m.get k = some v → r.identity v = k ∧ r.Good v
  keys : m.keys = addKeys [] (xs.map r.identity)
  source : ∀ {k v}, m.get k = some v →
    ∃ x ∈ xs, r.identity x = k ∧ r.version x = r.version v ∧ r.sequence x = r.sequence v
  newest : ∀ {k v}, m.get k = some v → ∀ x ∈ xs, r.identity x = k → r.sequence x ≤ r.sequence v

variable {r} {m : InsertionMap κ ν} {xs ys : List ν}

theorem merged_empty : r.Merged {} [] where
  held h := by cases h
  keys := rfl
  source h := by cases h
  newest h := by cases h

theorem Merged.mem_keys (h : r.Merged m xs) {k : κ} : k ∈ m.keys ↔ ∃ x ∈ xs, r.identity x = k := by
  rw [h.keys, mem_addKeys, List.mem_map]
  exact or_iff_right List.not_mem_nil

theorem Merged.keys_snoc (h : r.Merged m xs) (x : ν) :
    addKeys [] ((xs ++ [x]).map r.identity) =
      if r.identity x ∈ m.keys then m.keys else m.keys ++ [r.identity x] := by
  rw [List.map_append, addKeys_append, ← h.keys]
  rfl

/-- A value is put at its identity: a version of `x`, no older than what was there. -/
theorem Merged.put (h : r.Merged m xs) {x v : ν} (hx : r.identity v = r.identity x) (hgood : r.Good v)
    (hversion : r.version x = r.version v) (hsequence : r.sequence x = r.sequence v)
    (hprior : ∀ p, m.get (r.identity x) = some p → r.sequence p ≤ r.sequence v) :
    r.Merged (m.set (r.identity x) v) (xs ++ [x]) where
  held hget := by
    rw [InsertionMap.get_set] at hget
    split at hget
    · rename_i hk
      cases hget
      exact ⟨hx.trans hk.symm, hgood⟩
    · exact h.held hget
  keys := by rw [h.keys_snoc, InsertionMap.keys_set]
  source {k w} hget := by
    rw [InsertionMap.get_set] at hget
    split at hget
    · rename_i hk
      cases hget
      exact ⟨x, List.mem_append_right _ (List.mem_singleton_self x), hk.symm, hversion, hsequence⟩
    · obtain ⟨y, hy, hsource⟩ := h.source hget
      exact ⟨y, List.mem_append_left _ hy, hsource⟩
  newest {k w} hget y hy hyk := by
    rw [InsertionMap.get_set] at hget
    split at hget
    · rename_i hk
      cases hget
      obtain hy | hy := List.mem_append.mp hy
      · obtain ⟨p, hp⟩ := InsertionMap.mem_keys.mp (h.mem_keys.mpr ⟨y, hy, hyk.trans hk⟩)
        exact Nat.le_trans (h.newest hp y hy (hyk.trans hk)) (hprior p hp)
      · rw [List.mem_singleton.mp hy]
        exact Nat.le_of_eq hsequence
    · rename_i hk
      obtain hy | hy := List.mem_append.mp hy
      · exact h.newest hget y hy hyk
      · rw [List.mem_singleton.mp hy] at hyk
        exact absurd hyk.symm hk

theorem Merged.one (h : r.Merged m xs) {x : ν} (hx : r.Good x) :
    r.Merged (r.mergeOne m x) (xs ++ [x]) := by
  unfold mergeOne
  cases hprior : m.get (r.identity x) with
  | none =>
    refine h.put rfl hx rfl rfl fun p hp => ?_
    rw [hprior] at hp
    cases hp
  | some prior =>
    obtain ⟨hidentity, hgood⟩ := h.held hprior
    dsimp only
    split
    · rename_i hle
      refine h.put (r.identity_renew hgood hx hidentity) (r.good_renew hgood hx hidentity)
        (r.version_renew prior x).symm (r.sequence_renew prior x).symm fun p hp => ?_
      rw [hprior] at hp
      cases hp
      exact Nat.le_trans hle (Nat.le_of_eq (r.sequence_renew prior x).symm)
    · rename_i hlt
      refine ⟨h.held, ?_, ?_, ?_⟩
      · rw [h.keys_snoc, if_pos (InsertionMap.mem_keys.mpr ⟨prior, hprior⟩)]
      · intro k v hget
        obtain ⟨y, hy, hsource⟩ := h.source hget
        exact ⟨y, List.mem_append_left _ hy, hsource⟩
      · intro k v hget y hy hyk
        obtain hy | hy := List.mem_append.mp hy
        · exact h.newest hget y hy hyk
        · rw [List.mem_singleton.mp hy] at hyk ⊢
          rw [← hyk, hprior] at hget
          cases hget
          exact Nat.le_of_lt (Nat.lt_of_not_le hlt)

theorem Merged.all (h : r.Merged m xs) (hys : ∀ y ∈ ys, r.Good y) :
    r.Merged (r.mergeAll m ys) (xs ++ ys) := by
  induction ys generalizing m xs with
  | nil => rwa [List.append_nil]
  | cons y ys ih =>
    have := ih (h.one (hys y (List.mem_cons_self ..))) fun z hz => hys z (List.mem_cons_of_mem _ hz)
    rwa [List.append_assoc, List.singleton_append] at this

/-! ## The map of a list -/

theorem entries_index (hnodup : (xs.map r.identity).Nodup) :
    (r.index xs).entries = xs.map fun x => (r.identity x, x) := by
  have hfold : ∀ (xs : List ν) (m : InsertionMap κ ν), (xs.map r.identity).Nodup →
      (∀ x ∈ xs, m.get (r.identity x) = none) →
      (xs.foldl (fun m x => m.set (r.identity x) x) m).entries =
        m.entries ++ xs.map fun x => (r.identity x, x) := by
    intro xs
    induction xs with
    | nil => exact fun m _ _ => (List.append_nil _).symm
    | cons x xs ih =>
      intro m hnodup hnone
      rw [List.map_cons, List.nodup_cons] at hnodup
      rw [List.foldl_cons, ih _ hnodup.2, InsertionMap.entries_set m _ _
        (hnone x (List.mem_cons_self ..)), List.append_assoc]
      · rfl
      · intro y hy
        rw [InsertionMap.get_set_ne]
        · exact hnone y (List.mem_cons_of_mem _ hy)
        · exact fun heq => hnodup.1 (heq ▸ List.mem_map_of_mem hy)
  exact hfold xs {} hnodup fun _ _ => rfl

theorem merged_index (hnodup : (xs.map r.identity).Nodup) (hgood : ∀ x ∈ xs, r.Good x) :
    r.Merged (r.index xs) xs := by
  have hentries := entries_index hnodup
  have hget : ∀ {k v}, (r.index xs).get k = some v ↔ v ∈ xs ∧ r.identity v = k := by
    intro k v
    rw [← InsertionMap.mem_entries, hentries, List.mem_map]
    constructor
    · rintro ⟨x, hx, heq⟩
      cases heq
      exact ⟨hx, rfl⟩
    · rintro ⟨hv, rfl⟩
      exact ⟨v, hv, rfl⟩
  refine ⟨fun h => ⟨(hget.mp h).2, hgood _ (hget.mp h).1⟩, ?_, ?_, ?_⟩
  · rw [addKeys_fresh hnodup fun _ _ => List.not_mem_nil, List.nil_append]
    unfold InsertionMap.keys
    rw [hentries, List.map_map]
    rfl
  · exact fun h => ⟨_, (hget.mp h).1, (hget.mp h).2, rfl, rfl⟩
  · intro k v h x hx hxk
    obtain ⟨hv, hvk⟩ := hget.mp h
    exact Nat.le_of_eq (by rw [List.inj_on_of_nodup_map hnodup hx hv (hxk.trans hvk.symm)])

theorem Merged.identities (h : r.Merged m xs) : m.values.map r.identity = m.keys := by
  unfold InsertionMap.values InsertionMap.keys
  rw [List.map_map]
  exact List.map_congr_left fun e he => (h.held (InsertionMap.mem_entries.mp he)).1

theorem Merged.index_values (h : r.Merged m xs) : r.index m.values = m := by
  refine InsertionMap.ext_entries ?_
  rw [entries_index (h.identities ▸ m.nodup)]
  unfold InsertionMap.values
  rw [List.map_map]
  conv_rhs => rw [← List.map_id m.entries]
  refine List.map_congr_left fun e he => ?_
  rw [Function.comp, (h.held (InsertionMap.mem_entries.mp he)).1]
  rfl

/-! ## Merging once more -/

/-- Merging `x` into a map that has `v` changes nothing. -/
def Settled (r : Renewal κ ν μ) (x v : ν) : Prop := r.sequence x < r.sequence v ∨ r.renew v x = v

theorem mergeOne_settled {x v : ν} (hget : m.get (r.identity x) = some v) (h : r.Settled x v) :
    r.mergeOne m x = m := by
  unfold mergeOne
  rw [hget]
  dsimp only
  split
  · rename_i hle
    rw [h.resolve_left (Nat.not_lt_of_le hle), InsertionMap.set_same hget]
  · rfl

theorem mergeOne_get_self (h : r.Merged m xs) {x : ν} (hx : r.Good x) :
    ∃ v, (r.mergeOne m x).get (r.identity x) = some v ∧ r.Settled x v := by
  unfold mergeOne
  cases hprior : m.get (r.identity x) with
  | none => exact ⟨x, InsertionMap.get_set_self .., .inr (r.renew_self hx)⟩
  | some prior =>
    obtain ⟨hidentity, hgood⟩ := h.held hprior
    dsimp only
    split
    · exact ⟨_, InsertionMap.get_set_self .., .inr (r.renew_again hgood hx hidentity)⟩
    · rename_i hlt
      exact ⟨prior, hprior, .inl (Nat.lt_of_not_le hlt)⟩

theorem mergeOne_get_ne {x : ν} {k : κ} (hk : k ≠ r.identity x) :
    (r.mergeOne m x).get k = m.get k := by
  unfold mergeOne
  split
  · exact InsertionMap.get_set_ne _ _ hk
  · split
    · exact InsertionMap.get_set_ne _ _ hk
    · rfl

theorem mergeAll_get_ne {k : κ} (hk : ∀ x ∈ xs, r.identity x ≠ k) :
    (r.mergeAll m xs).get k = m.get k := by
  induction xs generalizing m with
  | nil => rfl
  | cons x xs ih =>
    have := ih (m := r.mergeOne m x) fun y hy => hk y (List.mem_cons_of_mem _ hy)
    exact this.trans (mergeOne_get_ne (hk x (List.mem_cons_self ..)).symm)

theorem mergeAll_settles (h : r.Merged m xs) (hys : ∀ y ∈ ys, r.Good y)
    (hnodup : (ys.map r.identity).Nodup) :
    ∀ y ∈ ys, ∃ v, (r.mergeAll m ys).get (r.identity y) = some v ∧ r.Settled y v := by
  induction ys generalizing m xs with
  | nil => exact fun _ hy => nomatch hy
  | cons x ys ih =>
    rw [List.map_cons, List.nodup_cons] at hnodup
    have hx := hys x (List.mem_cons_self ..)
    intro y hy
    obtain rfl | hy := List.mem_cons.mp hy
    · obtain ⟨v, hv, hsettled⟩ := mergeOne_get_self h hx
      refine ⟨v, ?_, hsettled⟩
      have hrest : ∀ z ∈ ys, r.identity z ≠ r.identity y :=
        fun z hz heq => hnodup.1 (heq ▸ List.mem_map_of_mem hz)
      exact (mergeAll_get_ne (m := r.mergeOne m y) hrest).trans hv
    · exact ih (h.one hx) (fun z hz => hys z (List.mem_cons_of_mem _ hz)) hnodup.2 y hy

theorem mergeAll_settled (h : ∀ y ∈ ys, ∃ v, m.get (r.identity y) = some v ∧ r.Settled y v) :
    r.mergeAll m ys = m := by
  induction ys with
  | nil => rfl
  | cons y ys ih =>
    obtain ⟨v, hv, hsettled⟩ := h y (List.mem_cons_self ..)
    unfold mergeAll
    rw [List.foldl_cons, mergeOne_settled hv hsettled]
    exact ih fun z hz => h z (List.mem_cons_of_mem _ hz)

theorem mergeAll_again (h : r.Merged m xs) (hys : ∀ y ∈ ys, r.Good y)
    (hnodup : (ys.map r.identity).Nodup) :
    r.mergeAll (r.mergeAll m ys) ys = r.mergeAll m ys :=
  mergeAll_settled (mergeAll_settles h hys hnodup)

/-! ## Values that are always renewed -/

theorem mergeAll_each {P : ν → List ν → Prop} (hfirst : ∀ x, r.Good x → P x [x])
    (hrenew : ∀ p x ts, r.Good p → r.Good x → r.identity p = r.identity x → P p ts →
      P (r.renew p x) (ts ++ [x]))
    (halways : ∀ p x, r.sequence p ≤ r.sequence x) (hys : ∀ y ∈ ys, r.Good y) {k : κ} {v : ν}
    (hv : (r.mergeAll {} ys).get k = some v) : P v (ys.filter fun y => r.identity y = k) := by
  have hfold : ∀ (ys xs : List ν) (m : InsertionMap κ ν), (∀ y ∈ ys, r.Good y) → r.Merged m xs →
      (∀ k v, m.get k = some v → P v (xs.filter fun y => r.identity y = k)) →
      ∀ k v, (r.mergeAll m ys).get k = some v →
        P v ((xs ++ ys).filter fun y => r.identity y = k) := by
    intro ys
    induction ys with
    | nil =>
      intro xs m _ _ hP
      rw [List.append_nil]
      exact hP
    | cons y ys ih =>
      intro xs m hys h hP
      have hy := hys y (List.mem_cons_self ..)
      have hnext := ih (xs ++ [y]) (r.mergeOne m y) (fun z hz => hys z (List.mem_cons_of_mem _ hz))
        (h.one hy) ?_
      · rw [List.append_assoc, List.singleton_append] at hnext
        exact hnext
      · intro k v hget
        rw [List.filter_append, List.filter_singleton]
        by_cases hk : k = r.identity y
        · subst hk
          rw [decide_eq_true rfl]
          unfold mergeOne at hget
          cases hprior : m.get (r.identity y) with
          | none =>
            rw [hprior] at hget
            dsimp only at hget
            rw [InsertionMap.get_set_self] at hget
            cases hget
            have hnone : xs.filter (fun z => r.identity z = r.identity y) = [] := by
              rw [List.filter_eq_nil_iff]
              intro z hz heq
              obtain ⟨p, hp⟩ := InsertionMap.mem_keys.mp
                (h.mem_keys.mpr ⟨z, hz, of_decide_eq_true heq⟩)
              rw [hprior] at hp
              cases hp
            rw [hnone]
            exact hfirst y hy
          | some prior =>
            obtain ⟨hidentity, hgood⟩ := h.held hprior
            rw [hprior] at hget
            dsimp only at hget
            rw [if_pos (halways prior y), InsertionMap.get_set_self] at hget
            cases hget
            exact hrenew prior y _ hgood hy hidentity (hP _ _ hprior)
        · rw [mergeOne_get_ne hk] at hget
          rw [decide_eq_false fun heq => hk heq.symm]
          exact (List.append_nil _).symm ▸ hP k v hget
  exact hfold ys [] {} hys merged_empty (fun _ _ h => nomatch h) k v hv

end Renewal
end Lib
end PiCloud
