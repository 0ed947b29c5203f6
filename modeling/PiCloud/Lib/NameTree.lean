import Mathlib.Data.List.Infix
import Mathlib.Data.List.Lex
import Mathlib.Order.Lattice
import PiCloud.Lib.InsertionMap

/-!
# Lib.NameTree

Files at paths of names, with the directories above them, and the order of such paths as text.

* `below_of_neighbours`: in a sorted list of texts in which no text begins with its neighbour and
  the separator, a text that has another one below it is also continued by a unit that sorts before
  the separator.
* `NameTree`: directories and files by their path. `create` makes the directories above a path and
  then the file, unless something is there.
* `fill_iff`: files are all created in an empty tree exactly if no path begins another one.
-/

namespace PiCloud
namespace Lib

/-! ## Sorted texts -/

section

variable {α : Type} [LinearOrder α] {s : α}

theorem between_below {p q : List α} {r : List α} (hp : p < q) (hq : q < p ++ s :: r) :
    ∃ u t, u ≤ s ∧ q = p ++ u :: t := by
  induction p generalizing q with
  | nil =>
    cases q with
    | nil => exact absurd hp (lt_irrefl _)
    | cons u t =>
      refine ⟨u, t, ?_, rfl⟩
      rw [List.nil_append, List.cons_lt_cons_iff] at hq
      obtain hlt | ⟨heq, -⟩ := hq
      · exact le_of_lt hlt
      · exact le_of_eq heq
  | cons a p ih =>
    cases q with
    | nil => exact absurd hp (List.not_lt_nil _)
    | cons b q =>
      rw [List.cons_append, List.cons_lt_cons_iff] at hq
      rw [List.cons_lt_cons_iff] at hp
      obtain hlt | ⟨rfl, hp⟩ := hp
      · obtain hlt' | ⟨rfl, -⟩ := hq
        · exact absurd (hlt.trans hlt') (lt_irrefl _)
        · exact absurd hlt (lt_irrefl _)
      · obtain hlt' | ⟨-, hq⟩ := hq
        · exact absurd hlt' (lt_irrefl _)
        · obtain ⟨u, t, hu, rfl⟩ := ih hp hq
          exact ⟨u, t, hu, rfl⟩

theorem lt_below (p : List α) {q : List α} (h : p ++ [s] <+: q) : p < q := by
  obtain ⟨r, rfl⟩ := h
  rw [List.append_assoc]
  induction p with
  | nil => exact List.nil_lt_cons _ _
  | cons a p ih => exact List.cons_lt_cons_iff.mpr (.inr ⟨rfl, ih⟩)

theorem below_of_neighbours {l : List (List α)} (hsorted : l.Pairwise (· < ·))
    (hchain : l.IsChain fun p q => ¬p ++ [s] <+: q) {p q : List α} (hp : p ∈ l) (hq : q ∈ l)
    (h : p ++ [s] <+: q) : ∃ u < s, ∃ r ∈ l, p ++ [u] <+: r := by
  induction l with
  | nil => cases hp
  | cons a l ih =>
    rw [List.pairwise_cons] at hsorted
    have hpq := lt_below p h
    obtain rfl | hp' := List.mem_cons.mp hp
    · -- the first text: its neighbour lies between it and the text below it
      obtain rfl | hq := List.mem_cons.mp hq
      · exact absurd hpq (lt_irrefl _)
      cases l with
      | nil => cases hq
      | cons b l =>
        rw [List.isChain_cons_cons] at hchain
        have hb : b < q := by
          obtain rfl | hq := List.mem_cons.mp hq
          · exact absurd h hchain.1
          · exact (List.pairwise_cons.mp hsorted.2).1 q hq
        obtain ⟨r, hr⟩ := h
        rw [List.append_assoc, List.singleton_append] at hr
        obtain ⟨u, t, hu, rfl⟩ := between_below (s := s) (r := r)
          (hsorted.1 b List.mem_cons_self) (hr ▸ hb)
        have hbegin : p ++ [u] <+: p ++ u :: t := ⟨t, by simp⟩
        refine ⟨u, lt_of_le_of_ne hu ?_, _, List.mem_cons_of_mem _ List.mem_cons_self, hbegin⟩
        rintro rfl
        exact hchain.1 hbegin
    · obtain rfl | hq := List.mem_cons.mp hq
      · exact absurd (hpq.trans (hsorted.1 p hp')) (lt_irrefl _)
      obtain ⟨u, hu, r, hr, hbegin⟩ := ih hsorted.2 hchain.of_cons hp' hq
      exact ⟨u, hu, r, List.mem_cons_of_mem _ hr, hbegin⟩

end

/-! ## Trees -/

inductive Node (φ : Type) where
  | directory
  | file (f : φ)
deriving DecidableEq

/-- What stands at a path; the empty path is a directory. -/
abbrev NameTree (ν φ : Type) := InsertionMap (List ν) (Node φ)

namespace NameTree

variable {ν φ : Type} [DecidableEq ν]

/-- The directories of a path below one that is there; `none` where a file is in the way. -/
def directories (t : NameTree ν φ) (above : List ν) : List ν → Option (NameTree ν φ)
  | [] => some t
  | n :: path =>
    match t.get (above ++ [n]) with
    | none => directories (t.set (above ++ [n]) .directory) (above ++ [n]) path
    | some .directory => directories t (above ++ [n]) path
    | some (.file _) => none

/-- The file, unless something is there already; says whether it was created. -/
def link (t : NameTree ν φ) (path : List ν) (f : φ) : NameTree ν φ × Bool :=
  match t.get path with
  | none => (t.set path (.file f), true)
  | some _ => (t, false)

def create (t : NameTree ν φ) (path : List ν) (f : φ) : Option (NameTree ν φ × Bool) :=
  (t.directories [] path.dropLast).map fun t => t.link path f

/-- Creates files one after the other, and keeps those that it created. -/
def fill {β : Type} (path : β → List ν) (file : β → φ) (t : NameTree ν φ) :
    List β → Option (NameTree ν φ × List β)
  | [] => some (t, [])
  | b :: bs => do
    let (t, created) ← t.create (path b) (file b)
    let (t, rest) ← fill path file t bs
    return (t, if created then b :: rest else rest)

/-! ### What is kept -/

def Kept (t t' : NameTree ν φ) : Prop := ∀ path n, t.get path = some n → t'.get path = some n

theorem Kept.refl (t : NameTree ν φ) : Kept t t := fun _ _ h => h

theorem Kept.trans {t t' t'' : NameTree ν φ} (h : Kept t t') (h' : Kept t' t'') : Kept t t'' :=
  fun path n hn => h' path n (h path n hn)

theorem kept_set {t : NameTree ν φ} {path : List ν} (h : t.get path = none) (n : Node φ) :
    Kept t (t.set path n) := by
  intro q m hm
  rw [InsertionMap.get_set_ne]
  · exact hm
  · rintro rfl
    rw [h] at hm
    cases hm

theorem directories_some {t t' : NameTree ν φ} {above path : List ν}
    (h : t.directories above path = some t') : Kept t t' ∧
      (∀ q r, path = q ++ r → q ≠ [] → t'.get (above ++ q) = some .directory) ∧
      ∀ q n, t'.get q = some n → t.get q = some n ∨
        n = .directory ∧ ∃ r r', path = r ++ r' ∧ r ≠ [] ∧ q = above ++ r := by
  induction path generalizing t above with
  | nil =>
    obtain rfl : t = t' := Option.some.inj h
    refine ⟨.refl t, ?_, fun _ _ hn => .inl hn⟩
    intro q r hqr hq
    exact absurd (List.append_eq_nil_iff.mp hqr.symm).1 hq
  | cons n path ih =>
    have hcons : ∀ {t₁ : NameTree ν φ}, t₁.get (above ++ [n]) = some .directory → Kept t t₁ →
        (∀ q m, t₁.get q = some m → t.get q = some m ∨ m = .directory ∧ q = above ++ [n]) →
        t₁.directories (above ++ [n]) path = some t' → Kept t t' ∧
          (∀ q r, n :: path = q ++ r → q ≠ [] → t'.get (above ++ q) = some .directory) ∧
          ∀ q m, t'.get q = some m → t.get q = some m ∨
            m = .directory ∧ ∃ r r', n :: path = r ++ r' ∧ r ≠ [] ∧ q = above ++ r := by
      intro t₁ hdir hkept hnew ht'
      obtain ⟨hk, hd, hn⟩ := ih ht'
      refine ⟨hkept.trans hk, ?_, ?_⟩
      · intro q r hqr hq
        obtain ⟨m, q, rfl⟩ := List.exists_cons_of_ne_nil hq
        obtain ⟨rfl, rfl⟩ := List.cons.inj hqr
        cases q with
        | nil => exact hk _ _ hdir
        | cons m' q =>
          have := hd (m' :: q) r rfl (List.cons_ne_nil _ _)
          rwa [List.append_assoc, List.singleton_append] at this
      · intro q m hm
        obtain hold | ⟨rfl, r, r', rfl, -, rfl⟩ := hn q m hm
        · obtain hold | ⟨rfl, rfl⟩ := hnew q m hold
          · exact .inl hold
          · exact .inr ⟨rfl, [n], path, rfl, List.cons_ne_nil _ _, rfl⟩
        · exact .inr ⟨rfl, n :: r, r', rfl, List.cons_ne_nil _ _, by simp⟩
    rw [directories] at h
    cases hget : t.get (above ++ [n]) with
    | none =>
      rw [hget] at h
      refine hcons (InsertionMap.get_set_self _ _ _) (kept_set hget _) ?_ h
      intro q m hm
      rw [InsertionMap.get_set] at hm
      split at hm
      · rename_i hq
        exact .inr ⟨(Option.some.inj hm).symm, hq⟩
      · exact .inl hm
    | some node =>
      rw [hget] at h
      cases node with
      | directory => exact hcons hget (.refl t) (fun q m hm => .inl hm) h
      | file f => cases h

theorem directories_isSome {t : NameTree ν φ} {above path : List ν}
    (h : ∀ q r f, path = q ++ r → q ≠ [] → t.get (above ++ q) ≠ some (.file f)) :
    (t.directories above path).isSome := by
  induction path generalizing t above with
  | nil => rfl
  | cons n path ih =>
    have hstep : ∀ {t₁ : NameTree ν φ}, (∀ q f, t₁.get q = some (.file f) → t.get q = some (.file f)) →
        (t₁.directories (above ++ [n]) path).isSome := by
      intro t₁ hfiles
      refine ih fun q r f hqr hq hfile => ?_
      rw [List.append_assoc] at hfile
      exact h (n :: q) r f (by rw [hqr]; rfl) (List.cons_ne_nil _ _) (hfiles _ _ hfile)
    rw [directories]
    cases hget : t.get (above ++ [n]) with
    | none =>
      refine hstep fun q f hfile => ?_
      rw [InsertionMap.get_set] at hfile
      split at hfile
      · cases hfile
      · exact hfile
    | some node =>
      cases node with
      | directory => exact hstep fun _ _ hfile => hfile
      | file f => exact absurd hget (h [n] path f rfl (List.cons_ne_nil _ _))

/-! ### Filling a tree -/

theorem create_true {t t' : NameTree ν φ} {path : List ν} {f : φ}
    (h : t.create path f = some (t', true)) : Kept t t' ∧ t.get path = none ∧
      t'.get path = some (.file f) ∧
      (∀ q r, path = q ++ r → q ≠ [] → r ≠ [] → t'.get q = some .directory) ∧
      ∀ q n, t'.get q = some n → t.get q = some n ∨ q = path ∧ n = .file f ∨
        n = .directory ∧ ∃ r, r ≠ [] ∧ path = q ++ r := by
  obtain ⟨t₁, hdirs, hlink⟩ := Option.map_eq_some_iff.mp h
  obtain ⟨hkept, hd, hnew⟩ := directories_some hdirs
  unfold link at hlink
  split at hlink
  · rename_i hnone
    obtain ⟨rfl, -⟩ := Prod.mk.inj hlink
    have hold : t.get path = none := by
      cases hget : t.get path with
      | none => rfl
      | some n => rw [hkept _ _ hget] at hnone; cases hnone
    refine ⟨hkept.trans (kept_set hnone _), hold, InsertionMap.get_set_self _ _ _, ?_, ?_⟩
    · intro q r hqr hq hr
      have hne : q ≠ path := by
        rintro rfl
        exact hr (List.append_right_eq_self.mp hqr.symm)
      rw [InsertionMap.get_set_ne _ _ hne]
      have hdrop : path.dropLast = q ++ r.dropLast := by
        rw [hqr, List.dropLast_append_of_ne_nil hr]
      simpa using hd q r.dropLast hdrop hq
    · intro q n hn
      rw [InsertionMap.get_set] at hn
      split at hn
      · rename_i hq
        exact .inr (.inl ⟨hq, (Option.some.inj hn).symm⟩)
      · obtain hn | ⟨rfl, r, r', hr, hne, rfl⟩ := hnew q n hn
        · exact .inl hn
        · refine .inr (.inr ⟨rfl, r' ++ path.getLast?.toList, ?_, ?_⟩)
          · intro hnil
            have hlast : path.getLast? = none := by
              cases hlast : path.getLast? with
              | none => rfl
              | some a => rw [hlast] at hnil; simp at hnil
            rw [List.getLast?_eq_none_iff.mp hlast] at hr
            exact hne (List.append_eq_nil_iff.mp hr.symm).1
          · cases path using List.reverseRecOn with
            | nil => exact absurd (List.append_eq_nil_iff.mp hr.symm).1 hne
            | append_singleton l a =>
              rw [List.dropLast_concat] at hr
              simp [hr]
  · cases hlink

section
variable {β : Type} {path : β → List ν} {file : β → φ}

theorem fill_cons {t t' : NameTree ν φ} {b : β} {bs : List β}
    (h : fill path file t (b :: bs) = some (t', b :: bs)) :
    ∃ t₁, t.create (path b) (file b) = some (t₁, true) ∧ fill path file t₁ bs = some (t', bs) := by
  have hshort : ∀ (bs : List β) (t t' : NameTree ν φ) (made : List β),
      fill path file t bs = some (t', made) → made.length ≤ bs.length := by
    intro bs
    induction bs with
    | nil =>
      intro t t' made hfill
      obtain ⟨rfl, rfl⟩ := Prod.mk.inj (Option.some.inj hfill)
      exact Nat.le_refl _
    | cons b bs ih =>
      intro t t' made hfill
      simp only [fill, Option.bind_eq_bind, Option.bind_eq_some_iff] at hfill
      obtain ⟨⟨t₁, created⟩, -, ⟨t₂, rest⟩, hrest, hsome⟩ := hfill
      obtain ⟨-, rfl⟩ := Prod.mk.inj (Option.some.inj hsome)
      have hle := ih _ _ _ hrest
      cases created <;> simp only [Bool.false_eq_true, if_false, if_true, List.length_cons] <;> omega
  simp only [fill, Option.bind_eq_bind, Option.bind_eq_some_iff] at h
  obtain ⟨⟨t₁, created⟩, hcreate, ⟨t₂, rest⟩, hrest, hsome⟩ := h
  obtain ⟨rfl, hmade⟩ := Prod.mk.inj (Option.some.inj hsome)
  cases created with
  | true =>
    rw [if_pos rfl] at hmade
    obtain ⟨-, rfl⟩ := List.cons.inj hmade
    exact ⟨t₁, hcreate, hrest⟩
  | false =>
    rw [if_neg Bool.false_ne_true] at hmade
    have hle : rest.length ≤ bs.length := hshort _ _ _ _ hrest
    have hmade' : rest = b :: bs := hmade
    rw [hmade', List.length_cons] at hle
    omega

def Apart (p q : List ν) : Prop := ¬p <+: q ∧ ¬q <+: p

/-- What a tree may hold before files are created in it: no file in the way, nothing in their
place. -/
structure Room (t : NameTree ν φ) (path : List ν) : Prop where
  free : t.get path = none
  clear : ∀ q r f, path = q ++ r → q ≠ [] → t.get q ≠ some (.file f)

theorem create_of_room {t : NameTree ν φ} {p : List ν} (h : Room t p) (f : φ) :
    ∃ t', t.create p f = some (t', true) := by
  have hdirs : (t.directories [] p.dropLast).isSome := by
    refine directories_isSome fun q r g hqr hq => ?_
    cases p using List.reverseRecOn with
    | nil => exact absurd (List.append_eq_nil_iff.mp hqr.symm).1 hq
    | append_singleton l a =>
      rw [List.dropLast_concat] at hqr
      exact h.clear q (r ++ [a]) g (by rw [hqr, List.append_assoc]) hq
  obtain ⟨t₁, ht₁⟩ := Option.isSome_iff_exists.mp hdirs
  have hfree : t₁.get p = none := by
    cases hget : t₁.get p with
    | none => rfl
    | some n =>
      obtain hold | ⟨-, r, r', hr, hne, hp⟩ := (directories_some ht₁).2.2 p n hget
      · rw [h.free] at hold
        cases hold
      · rw [List.nil_append] at hp
        subst hp
        have hlen := congrArg List.length hr
        have hpos := List.length_pos_iff.mpr hne
        rw [List.length_dropLast, List.length_append] at hlen
        omega
  refine ⟨t₁.set p (.file f), ?_⟩
  simp only [create, ht₁, Option.map_some, link, hfree]

theorem Room.step {t t' : NameTree ν φ} {p q : List ν} {f : φ} (hq : Room t q)
    (hpq : Apart p q) (h : t.create p f = some (t', true)) : Room t' q := by
  obtain ⟨-, -, -, -, hnew⟩ := create_true h
  constructor
  · cases hget : t'.get q with
    | none => rfl
    | some n =>
      obtain hold | ⟨rfl, -⟩ | ⟨-, r, -, hp⟩ := hnew q n hget
      · rw [hq.free] at hold
        cases hold
      · exact absurd List.prefix_rfl hpq.1
      · exact absurd ⟨r, hp.symm⟩ hpq.2
  · intro a r g har hne hfile
    obtain hold | ⟨rfl, -⟩ | ⟨hdir, -⟩ := hnew a _ hfile
    · exact hq.clear a r g har hne hold
    · exact absurd ⟨r, har.symm⟩ hpq.1
    · cases hdir

theorem fill_of_room {bs : List β} {t : NameTree ν φ} (hroom : ∀ b ∈ bs, Room t (path b))
    (h : bs.Pairwise fun a b => Apart (path a) (path b)) :
    ∃ t', fill path file t bs = some (t', bs) := by
  induction bs generalizing t with
  | nil => exact ⟨t, rfl⟩
  | cons b bs ih =>
    rw [List.pairwise_cons] at h
    rw [List.forall_mem_cons] at hroom
    obtain ⟨t₁, hcreate⟩ := create_of_room hroom.1 (file b)
    obtain ⟨t', hfill⟩ := ih (fun c hc => (hroom.2 c hc).step (h.1 c hc) hcreate) h.2
    refine ⟨t', ?_⟩
    simp only [fill, hcreate, Option.bind_eq_bind, Option.bind_some, hfill, if_pos]
    rfl

theorem fill_apart {bs : List β} {t t' : NameTree ν φ} {p : List ν} {f : φ} (hp : p ≠ [])
    (hne : ∀ b ∈ bs, path b ≠ []) (hfile : t.get p = some (.file f))
    (hdirs : ∀ q r, p = q ++ r → q ≠ [] → r ≠ [] → t.get q = some .directory)
    (h : fill path file t bs = some (t', bs)) : ∀ b ∈ bs, Apart p (path b) := by
  induction bs generalizing t with
  | nil => simp
  | cons b bs ih =>
    rw [List.forall_mem_cons] at hne ⊢
    obtain ⟨t₁, hcreate, hrest⟩ := fill_cons h
    obtain ⟨hkept, hfree, -, hbelow, -⟩ := create_true hcreate
    refine ⟨⟨?_, ?_⟩, ih hne.2 (hkept _ _ hfile) (fun q r hqr hq hr =>
      hkept _ _ (hdirs q r hqr hq hr)) hrest⟩
    · rintro ⟨r, hr⟩
      cases r with
      | nil =>
        rw [List.append_nil] at hr
        rw [← hr, hfile] at hfree
        cases hfree
      | cons a r =>
        have hdir := hbelow p (a :: r) hr.symm hp (List.cons_ne_nil _ _)
        rw [hkept _ _ hfile] at hdir
        cases hdir
    · rintro ⟨r, hr⟩
      cases r with
      | nil =>
        rw [List.append_nil] at hr
        rw [hr, hfile] at hfree
        cases hfree
      | cons a r =>
        rw [hdirs _ _ hr.symm hne.1 (List.cons_ne_nil _ _)] at hfree
        cases hfree

theorem fill_holds {bs : List β} {t t' : NameTree ν φ} (h : fill path file t bs = some (t', bs)) :
    Kept t t' ∧ ∀ b ∈ bs, t'.get (path b) = some (.file (file b)) := by
  induction bs generalizing t with
  | nil =>
    obtain ⟨rfl, -⟩ := Prod.mk.inj (Option.some.inj h)
    exact ⟨.refl t, by simp⟩
  | cons b bs ih =>
    obtain ⟨t₁, hcreate, hrest⟩ := fill_cons h
    obtain ⟨hkept, -, hfile, -⟩ := create_true hcreate
    obtain ⟨hkept', hall⟩ := ih hrest
    exact ⟨hkept.trans hkept', List.forall_mem_cons.mpr ⟨hkept' _ _ hfile, hall⟩⟩

theorem fill_pairwise {bs : List β} {t t' : NameTree ν φ} (hne : ∀ b ∈ bs, path b ≠ [])
    (h : fill path file t bs = some (t', bs)) : bs.Pairwise fun a b => Apart (path a) (path b) := by
  induction bs generalizing t with
  | nil => exact List.Pairwise.nil
  | cons b bs ih =>
    rw [List.forall_mem_cons] at hne
    obtain ⟨t₁, hcreate, hrest⟩ := fill_cons h
    obtain ⟨-, -, hfile, hdirs, -⟩ := create_true hcreate
    exact List.pairwise_cons.mpr ⟨fill_apart hne.1 hne.2 hfile hdirs hrest, ih hne.2 hrest⟩

theorem fill_iff {bs : List β} (hne : ∀ b ∈ bs, path b ≠ []) :
    (∃ t, fill path file {} bs = some (t, bs)) ↔
      bs.Pairwise fun a b => Apart (path a) (path b) := by
  constructor
  · rintro ⟨t, h⟩
    exact fill_pairwise hne h
  · refine fill_of_room fun b hb => ⟨rfl, ?_⟩
    intro q r f _ _ hfile
    cases hfile

end

end NameTree

end Lib
end PiCloud
