import Mathlib.Algebra.BigOperators.Group.List.Basic
import Mathlib.Algebra.Order.Ring.Int
import PiCloud.Durable.OverlayRecords

/-!
# Durable.OverlayPreparation

What a batch is when its preparation has succeeded, on a storage that knows its records.

* `Claimed`, `Gathered`: the ids that the writes claim, and what they do to each document.
* `effect`, `Changed`: the records that the batch puts, and how it changes the count of an address.
* `Accepted`, `prepare_accepted`: all that is known of a prepared batch.
-/

namespace PiCloud
namespace Durable
namespace Overlay

open Lib
open Published (DocumentPoint)

section Preparation

variable {Op : Type} {o : Options Op} {w : World Op} {f : Nat → Option IndexedRecord} {s : Store Op}
  {t : Working Op}

/-! ## Claims -/

namespace StorageWrite

def isCopy : StorageWrite Op → Bool
  | .documentCopy .. => true
  | _ => false

/-- A write and what the preparation makes of it. -/
structure Resolves (write resolved : StorageWrite Op) : Prop where
  plain : resolved.isCopy = false
  claim : resolved.claim = write.claim
  created : resolved.created = write.created
  retired : resolved.retired = write.retired

end StorageWrite

theorem resolveCopy_known (changed : List Nat) (write : StorageWrite Op) (h : Still w f s t.store) :
    Ends (resolveCopy o w changed write) t
      (fun resolved t' => write.Resolves resolved ∧ Still w f s t'.store)
      fun _ t' => Still w f s t'.store := by
  refine ((keeps_resolveCopy closed_still changed write).ends
    (Q := fun resolved _ => write.Resolves resolved) (E := fun _ _ => True) ?_ h).imp
    (fun _ _ hr => hr) fun _ _ he => he.2
  cases write with
  | documentCopy record source point =>
    unfold resolveCopy
    dsimp only
    split
    · exact .throw trivial
    · refine Ends.bind (Q := fun _ _ => True) ?_ ?_
      · exact ((keeps_readDocument closed_still source point).ends (Q := fun _ _ => True)
          (E := fun _ _ => True) (by unfold Ends; split <;> trivial) h).imp
          (fun _ _ _ => trivial) fun _ _ _ => trivial
      · rintro found t' -
        cases found with
        | none => exact .throw trivial
        | some found =>
          dsimp only
          split
          · exact .pure ⟨rfl, rfl, rfl, rfl⟩
          · exact .throw trivial
  | value | documentCreate | documentChange | documentRetire => exact .pure ⟨rfl, rfl, rfl, rfl⟩

/-- What the writes so far claim. -/
structure Claimed (f : Nat → Option IndexedRecord) (start : Nat) (past : List (StorageWrite Op))
    (c : Claims Op) : Prop where
  free : ∀ write ∈ past, ∀ id kind, write.claim = some (id, kind) → ∀ r, f id = some r →
    r.kind = kind ∧ isRewritten kind = true
  claimed : ∀ write ∈ past, ∀ id kind, write.claim = some (id, kind) → c.claimed.get id = some kind
  claims : ∀ id kind, c.claimed.get id = some kind → ∃ write ∈ past, write.claim = some (id, kind)
  below : ∀ write ∈ past, ∀ id kind, write.claim = some (id, kind) → id < c.nextId
  start : start ≤ c.nextId

theorem claim_known {start : Nat} {past : List (StorageWrite Op)} {c : Claims Op}
    (write : StorageWrite Op) (hc : Claimed f start past c) (h : Still w f s t.store) :
    Ends (claim o w c write) t
      (fun c' t' => (Claimed f start (past ++ [write]) c' ∧ c'.actions = c.actions) ∧
        Still w f s t'.store)
      fun _ t' => Still w f s t'.store := by
  have hsplit : ∀ {P : StorageWrite Op → Prop}, (∀ x ∈ past, P x) → P write →
      ∀ x ∈ past ++ [write], P x := by
    intro P hpast hwrite x hx
    obtain hx | hx := List.mem_append.mp hx
    · exact hpast x hx
    · rw [List.mem_singleton.mp hx]
      exact hwrite
  unfold claim
  cases hclaim : write.claim with
  | none =>
    have hno : ∀ {P : Nat → DurableRecordKind → Prop} id kind, write.claim = some (id, kind) → P id kind := by
      intro P id kind heq
      rw [hclaim] at heq
      cases heq
    refine .pure ⟨⟨⟨?_, ?_, ?_, ?_, hc.start⟩, rfl⟩, h⟩
    · exact hsplit hc.free hno
    · exact hsplit hc.claimed hno
    · intro id kind hget
      obtain ⟨x, hx, hxc⟩ := hc.claims id kind hget
      exact ⟨x, List.mem_append_left _ hx, hxc⟩
    · exact hsplit hc.below hno
  | some claim =>
    obtain ⟨id, kind⟩ := claim
    unfold claimId
    refine (get_known id h).bind ?_
    rintro existing t' ⟨rfl, ht'⟩
    split
    · exact .throw ht'
    · rename_i hfree
      split
      · exact .throw ht'
      · rename_i hearlier
        have hown : ∀ {P : Nat → DurableRecordKind → Prop}, P id kind →
            ∀ id' kind', write.claim = some (id', kind') → P id' kind' := by
          intro P hP id' kind' heq
          rw [hclaim] at heq
          cases heq
          exact hP
        have hfree' : ∀ r, f id = some r → r.kind = kind ∧ isRewritten kind = true := by
          intro r hr
          simpa [hr] using hfree
        have hearlier' : ∀ earlier, c.claimed.get id = some earlier → earlier = kind := by
          intro earlier he
          rw [he] at hearlier
          simp only [Option.any_some, Bool.or_eq_true, decide_eq_true_eq, not_or, not_not] at hearlier
          exact hearlier.1
        refine .pure ⟨⟨⟨?_, ?_, ?_, ?_, ?_⟩, rfl⟩, ht'⟩
        · exact hsplit hc.free (hown hfree')
        · refine hsplit (fun x hx id' kind' hxc => ?_) (hown (InsertionMap.get_set_self _ _ _))
          have hold := hc.claimed x hx id' kind' hxc
          rw [InsertionMap.get_set]
          split
          · rename_i hid
            subst hid
            rw [hearlier' _ hold]
          · exact hold
        · intro id' kind' hget
          rw [InsertionMap.get_set] at hget
          split at hget
          · rename_i hid
            cases hget
            exact ⟨write, List.mem_append_right _ (List.mem_singleton_self _), hid ▸ hclaim⟩
          · obtain ⟨x, hx, hxc⟩ := hc.claims id' kind' hget
            exact ⟨x, List.mem_append_left _ hx, hxc⟩
        · refine hsplit (fun x hx id' kind' hxc => ?_) (hown ?_)
          · exact Nat.lt_of_lt_of_le (hc.below x hx id' kind' hxc) (Nat.le_max_left ..)
          · exact Nat.lt_of_lt_of_le (Nat.lt_succ_self id) (Nat.le_max_right ..)
        · exact Nat.le_trans hc.start (Nat.le_max_left ..)

/-- What the writes so far do to each document. -/
structure Gathered (past : List (StorageWrite Op)) (m : InsertionMap Nat (DocumentAction Op)) : Prop where
  contents : (past.filterMap StorageWrite.contentId).Nodup
  content : ∀ id, ((m.get id).getD {}).content.isSome = true ↔ id ∈ past.filterMap StorageWrite.contentId
  create : ∀ id record, ((m.get id).getD {}).create = some record ↔
    record ∈ past.filterMap StorageWrite.created ∧ record.id = id
  retire : ∀ id, ((m.get id).getD {}).retire = true ↔ id ∈ past.filterMap StorageWrite.retired
  made : ∀ id, ((m.get id).getD {}).create.isSome = true → ((m.get id).getD {}).content.isSome = true
  keys : ∀ id, m.get id ≠ none ↔ ∃ write ∈ past, write.documentId = some id

theorem gathered_nil : Gathered ([] : List (StorageWrite Op)) {} where
  contents := .nil
  content id := by simp [InsertionMap.get]
  create id record := by simp [InsertionMap.get]
  retire id := by simp [InsertionMap.get]
  made id := by simp [InsertionMap.get]
  keys id := by simp [InsertionMap.get]

theorem Gathered.add {past : List (StorageWrite Op)} {m : InsertionMap Nat (DocumentAction Op)}
    (h : Gathered past m) {write : StorageWrite Op} {id : Nat} {action : DocumentAction Op}
    (hid : write.documentId = some id)
    (hcontents : ((past ++ [write]).filterMap StorageWrite.contentId).Nodup)
    (hcontent : action.content.isSome = true ↔
      id ∈ (past ++ [write]).filterMap StorageWrite.contentId)
    (hcreate : ∀ record, action.create = some record ↔
      record ∈ (past ++ [write]).filterMap StorageWrite.created ∧ record.id = id)
    (hretire : action.retire = true ↔ id ∈ (past ++ [write]).filterMap StorageWrite.retired)
    (hmade : action.create.isSome = true → action.content.isSome = true)
    (hothers : ∀ j, j ≠ id → write.contentId ≠ some j ∧ write.retired ≠ some j ∧
      ∀ record, write.created = some record → record.id ≠ j) :
    Gathered (past ++ [write]) (m.set id action) where
  contents := hcontents
  content j := by
    by_cases hj : j = id
    · subst hj
      rwa [InsertionMap.get_set_self]
    · rw [InsertionMap.get_set_ne _ _ hj, h.content, List.filterMap_append, List.mem_append]
      simp [(hothers j hj).1]
  create j record := by
    by_cases hj : j = id
    · subst hj
      rw [InsertionMap.get_set_self]
      exact hcreate record
    · rw [InsertionMap.get_set_ne _ _ hj, h.create, List.filterMap_append, List.mem_append]
      constructor
      · exact fun hr => ⟨.inl hr.1, hr.2⟩
      · rintro ⟨hr | hr, hrid⟩
        · exact ⟨hr, hrid⟩
        · obtain ⟨x, hx, hcreated⟩ := List.mem_filterMap.mp hr
          rw [List.mem_singleton.mp hx] at hcreated
          exact absurd hrid ((hothers j hj).2.2 record hcreated)
  retire j := by
    by_cases hj : j = id
    · subst hj
      rwa [InsertionMap.get_set_self]
    · rw [InsertionMap.get_set_ne _ _ hj, h.retire, List.filterMap_append, List.mem_append]
      simp [(hothers j hj).2.1]
  made j := by
    by_cases hj : j = id
    · subst hj
      rwa [InsertionMap.get_set_self]
    · rw [InsertionMap.get_set_ne _ _ hj]
      exact h.made j
  keys j := by
    by_cases hj : j = id
    · subst hj
      rw [InsertionMap.get_set_self]
      exact ⟨fun _ => ⟨write, List.mem_append_right _ (List.mem_singleton_self _), hid⟩, fun _ => nofun⟩
    · rw [InsertionMap.get_set_ne _ _ hj, h.keys]
      constructor
      · rintro ⟨x, hx, hxid⟩
        exact ⟨x, List.mem_append_left _ hx, hxid⟩
      · rintro ⟨x, hx, hxid⟩
        obtain hx | hx := List.mem_append.mp hx
        · exact ⟨x, hx, hxid⟩
        · rw [List.mem_singleton.mp hx, hid] at hxid
          exact absurd (Option.some.inj hxid).symm hj

theorem Gathered.skip {past : List (StorageWrite Op)} {m : InsertionMap Nat (DocumentAction Op)}
    (h : Gathered past m) (v : Value) : Gathered (past ++ [StorageWrite.value v]) m where
  contents := by
    rw [List.filterMap_append]
    change (past.filterMap StorageWrite.contentId ++ []).Nodup
    rw [List.append_nil]
    exact h.contents
  content id := by simpa [StorageWrite.contentId] using h.content id
  create id record := by simpa [StorageWrite.created] using h.create id record
  retire id := by simpa [StorageWrite.retired] using h.retire id
  made := h.made
  keys id := by simpa [StorageWrite.documentId] using h.keys id

theorem map_eq_ok {α β : Type} {g : α → β} {x : Except String α} {b : β} (h : x.map g = .ok b) :
    ∃ a, x = .ok a ∧ g a = b := by
  cases x with
  | ok a => exact ⟨a, rfl, Except.ok.inj h⟩
  | error e => cases h

theorem gather_known {past : List (StorageWrite Op)} {c c' : Claims Op} {write : StorageWrite Op}
    (hplain : write.isCopy = false) (hm : Gathered past c.actions) (h : gather c write = .ok c') :
    Gathered (past ++ [write]) c'.actions ∧ c'.claimed = c.claimed ∧ c'.nextId = c.nextId := by
  unfold gather at h
  cases write with
  | value v =>
    cases h
    exact ⟨hm.skip v, rfl, rfl⟩
  | documentCopy record source point => cases hplain
  | documentRetire id =>
    obtain ⟨action, haction, rfl⟩ := map_eq_ok h
    dsimp only [gatherAction] at haction
    split at haction
    · cases haction
    · rename_i hretire
      cases haction
      refine ⟨hm.add rfl ?_ ?_ ?_ ?_ (hm.made id) ?_, rfl, rfl⟩
      · rw [List.filterMap_append]
        change (past.filterMap StorageWrite.contentId ++ []).Nodup
        rw [List.append_nil]
        exact hm.contents
      · simpa [StorageWrite.contentId] using hm.content id
      · intro record
        simpa [StorageWrite.created] using hm.create id record
      · simp [StorageWrite.retired]
      · intro j hj
        exact ⟨by rintro ⟨⟩, fun heq => hj (Option.some.inj heq).symm, by rintro _ ⟨⟩⟩
  | documentChange id content =>
    obtain ⟨action, haction, rfl⟩ := map_eq_ok h
    dsimp only [gatherAction] at haction
    split at haction
    · cases haction
    · rename_i hcontent
      have hnew : id ∉ past.filterMap StorageWrite.contentId := fun hmem =>
        hcontent ((hm.content id).mpr hmem)
      cases haction
      refine ⟨hm.add rfl ?_ ?_ ?_ ?_ (fun _ => rfl) ?_, rfl, rfl⟩
      · rw [List.filterMap_append]
        refine List.nodup_append.mpr ⟨hm.contents, List.nodup_singleton id, ?_⟩
        rintro x hx y hy rfl
        rw [List.mem_singleton.mp hy] at hx
        exact hnew hx
      · simp [StorageWrite.contentId]
      · intro record
        simpa [StorageWrite.created] using hm.create id record
      · simpa [StorageWrite.retired] using hm.retire id
      · intro j hj
        exact ⟨fun heq => hj (Option.some.inj heq).symm, by rintro ⟨⟩, by rintro _ ⟨⟩⟩
  | documentCreate record content =>
    obtain ⟨action, haction, rfl⟩ := map_eq_ok h
    dsimp only [gatherAction] at haction
    split at haction
    · cases haction
    · rename_i hcontent
      have hnew : record.id ∉ past.filterMap StorageWrite.contentId := fun hmem =>
        hcontent ((hm.content record.id).mpr hmem)
      have hfirst : ∀ r ∈ past.filterMap StorageWrite.created, r.id ≠ record.id := by
        intro r hr hid
        have hcreate := (hm.create record.id r).mpr ⟨hr, hid⟩
        exact hcontent (hm.made record.id (by rw [hcreate]; rfl))
      cases haction
      refine ⟨hm.add rfl ?_ ?_ ?_ ?_ (fun _ => rfl) ?_, rfl, rfl⟩
      · rw [List.filterMap_append]
        refine List.nodup_append.mpr ⟨hm.contents, List.nodup_singleton record.id, ?_⟩
        rintro x hx y hy rfl
        rw [List.mem_singleton.mp hy] at hx
        exact hnew hx
      · simp [StorageWrite.contentId]
      · intro r
        rw [List.filterMap_append, List.mem_append]
        constructor
        · intro hr
          cases hr
          exact ⟨.inr (List.mem_singleton_self _), rfl⟩
        · rintro ⟨hr | hr, hid⟩
          · exact absurd hid (hfirst r hr)
          · rw [List.mem_singleton.mp hr]
      · simpa [StorageWrite.retired] using hm.retire record.id
      · intro j hj
        exact ⟨fun heq => hj (Option.some.inj heq).symm, by rintro ⟨⟩, fun r hr hid => by
          cases hr
          exact hj hid.symm⟩

theorem claimWrite_known {start : Nat} {past : List (StorageWrite Op)} {c : Claims Op}
    {write : StorageWrite Op} (hplain : write.isCopy = false) (hc : Claimed f start past c)
    (hm : Gathered past c.actions) (h : Still w f s t.store) :
    Ends (claimWrite o w c write) t
      (fun c' t' => (Claimed f start (past ++ [write]) c' ∧ Gathered (past ++ [write]) c'.actions) ∧
        Still w f s t'.store)
      fun _ t' => Still w f s t'.store := by
  refine (claim_known write hc h).bind ?_
  rintro c1 t' ⟨⟨hc1, hactions⟩, ht'⟩
  refine ends_lift (fun c' hc' => ?_) fun _ => ht'
  obtain ⟨hm', hclaimed, hnext⟩ := gather_known hplain (hactions ▸ hm) hc'
  refine ⟨⟨⟨hc1.free, ?_, ?_, ?_, ?_⟩, hm'⟩, ht'⟩
  · rw [hclaimed]
    exact hc1.claimed
  · rw [hclaimed]
    exact hc1.claims
  · rw [hnext]
    exact hc1.below
  · rw [hnext]
    exact hc1.start

/-! ## Documents -/

def documentOf (f : Nat → Option IndexedRecord) (id : Nat) : Option Document :=
  (f id).bind IndexedRecord.document?

/-- What a batch does to the number of documents at an address, with one document. -/
def effect (f : Nat → Option IndexedRecord) (seq : Nat) (a : Address)
    (e : Nat × DocumentAction Op) : Int :=
  match recordAfter seq (documentOf f e.1) e.2 with
  | none => 0
  | some record =>
    if documentAddress record.toDocumentCreate = a then
      (if e.2.create.isSome && !e.2.retire then 1 else 0) -
        (if (documentOf f e.1).isSome && e.2.retire then 1 else 0)
    else 0

/-- The record that a batch puts for one document. -/
def recordFor (f : Nat → Option IndexedRecord) (seq : Nat) (e : Nat × DocumentAction Op) :
    Option IndexedRecord :=
  if e.2.create.isSome || e.2.retire then
    (recordAfter seq (documentOf f e.1) e.2).map IndexedRecord.document
  else none

/-- The pass over the documents so far. -/
structure Changed (f : Nat → Option IndexedRecord) (seq : Nat) (past : List (Nat × DocumentAction Op))
    (p : Changes Op) : Prop where
  records : p.records = past.filterMap (recordFor f seq)
  counts : ∀ a c, IsCount f a c → (p.liveCounts.get a).getD c = c + (past.map (effect f seq a)).sum
  unretired : ∀ e ∈ past, ∀ d, documentOf f e.1 = some d → d.retiredAt = none
  found : ∀ e ∈ past, recordAfter seq (documentOf f e.1) e.2 ≠ none

/-- Only the records and the counts matter here. -/
structure Same (p p' : Changes Op) : Prop where
  records : p'.records = p.records
  counts : p'.liveCounts = p.liveCounts

theorem same_addInput (p : Changes Op) (record : Document) : Same p (p.addInput record) := by
  unfold Changes.addInput
  split
  · split <;> exact ⟨rfl, rfl⟩
  · exact ⟨rfl, rfl⟩

theorem same_retire (p : Changes Op) (id : Nat) (action : DocumentAction Op) (record : Document) :
    Same p (p.retire id action record) := by
  unfold Changes.retire
  dsimp only
  split <;> split <;> exact ⟨rfl, rfl⟩

theorem same_reset (p : Changes Op) (id : Nat) (content : DocumentContent Op) (record : Document) :
    Same p (p.reset id content record) := by
  unfold Changes.reset
  split <;> exact ⟨rfl, rfl⟩

theorem contentAction_same (seq id ordinal : Nat) (p : Changes Op) (action : DocumentAction Op)
    (record : Document) : Ends (contentAction o w seq id ordinal p action record) t
      (fun p' _ => Same p p') fun _ _ => True := by
  have hany : ∀ {α : Type} (x : Work Op α) (t : Working Op),
      Ends x t (fun _ _ => True) fun _ _ => True := by
    intro α x t
    unfold Ends
    split <;> trivial
  unfold contentAction
  split
  · exact .pure ⟨rfl, rfl⟩
  · rename_i content _
    refine (hany _ t).bind fun previous t1 _ => (hany _ t1).bind fun _ t2 _ => ?_
    obtain ⟨hrecords, hcounts⟩ := same_reset p id content record
    dsimp only
    split
    · exact .pure ⟨hrecords, hcounts⟩
    · split
      · exact .pure ⟨hrecords, hcounts⟩
      · refine (hany _ t2).bind fun before t3 _ => (hany _ t3).bind fun after t4 _ => ?_
        exact .pure ⟨hrecords, hcounts⟩

theorem knownCount_known {claimed : InsertionMap Nat DurableRecordKind} {seq : Nat}
    {past : List (Nat × DocumentAction Op)} {p : Changes Op} (a : Address) (hp : Changed f seq past p)
    (h : Still w f s t.store) (howners : OwnersKnown s claimed f a) :
    Ends (knownCount w claimed p a) t
      (fun c t' => (∀ c0, IsCount f a c0 → c = c0 + (past.map (effect f seq a)).sum ∨
        (p.liveCounts.get a = none ∧ c = c0)) ∧ Still w f s t'.store)
      fun _ t' => Still w f s t'.store := by
  unfold knownCount
  cases hget : p.liveCounts.get a with
  | some count =>
    refine .pure ⟨fun c0 hc0 => .inl ?_, h⟩
    have := hp.counts a c0 hc0
    rwa [hget] at this
  | none =>
    refine (countCurrent_known a h howners).imp (fun c t' hc => ⟨fun c0 hc0 => .inr ⟨rfl, ?_⟩, hc.2⟩)
      fun _ _ he => he
    exact hc.1.eq hc0

theorem countAction_known {claimed : InsertionMap Nat DurableRecordKind} {seq id : Nat}
    {past : List (Nat × DocumentAction Op)} {p : Changes Op} {action : DocumentAction Op}
    {record : Document} (hp : Changed f seq past p)
    (hrecord : recordAfter seq (documentOf f id) action = some record) (h : Still w f s t.store)
    (howners : action.create.isSome = true ∨ action.retire = true →
      OwnersKnown s claimed f (documentAddress record.toDocumentCreate)) :
    Ends (countAction w claimed p (documentOf f id).isSome action record) t
      (fun p' t' => (p'.records = p.records ∧ ∀ a c, IsCount f a c →
        (p'.liveCounts.get a).getD c = c + ((past ++ [(id, action)]).map (effect f seq a)).sum) ∧
        Still w f s t'.store)
      fun _ t' => Still w f s t'.store := by
  have hsum : ∀ a, ((past ++ [(id, action)]).map (effect f seq a)).sum =
      (past.map (effect f seq a)).sum + effect f seq a (id, action) := by
    intro a
    rw [List.map_append, List.sum_append, List.map_singleton, List.sum_singleton]
  have heffect : ∀ a, effect f seq a (id, action) =
      if documentAddress record.toDocumentCreate = a then
        (if action.create.isSome && !action.retire then 1 else 0) -
          (if (documentOf f id).isSome && action.retire then 1 else 0)
      else 0 := by
    intro a
    unfold effect
    rw [hrecord]
  unfold countAction
  split
  · rename_i hidle
    rw [Bool.not_eq_true', Bool.or_eq_false_iff] at hidle
    refine .pure ⟨⟨rfl, fun a c hc => ?_⟩, h⟩
    rw [hp.counts a c hc, hsum, heffect]
    simp [hidle.1, hidle.2]
  · rename_i hbusy
    rw [Bool.not_eq_true', Bool.not_eq_false, Bool.or_eq_true] at hbusy
    refine (knownCount_known _ hp h (howners hbusy)).bind ?_
    rintro count t' ⟨hcount, ht'⟩
    refine .pure ⟨⟨rfl, fun a c hc => ?_⟩, ht'⟩
    dsimp only
    rw [hsum, InsertionMap.get_set, heffect]
    by_cases ha : a = documentAddress record.toDocumentCreate
    · subst ha
      rw [if_pos rfl, if_pos rfl, Option.getD_some]
      have hbase : count = c + (past.map (effect f seq (documentAddress record.toDocumentCreate))).sum := by
        obtain hknown | ⟨hnone, hknown⟩ := hcount c hc
        · exact hknown
        · have := hp.counts _ c hc
          rw [hnone, Option.getD_none] at this
          rw [hknown]
          exact this
      rw [hbase]
      split <;> split <;> omega
    · rw [if_neg ha, if_neg (Ne.symm ha), Int.add_zero]
      exact hp.counts a c hc

theorem prepareAction_known {claimed : InsertionMap Nat DurableRecordKind} {seq id : Nat}
    {writes : List (StorageWrite Op)} {past : List (Nat × DocumentAction Op)} {p : Changes Op}
    {action : DocumentAction Op} (hp : Changed f seq past p) (h : Still w f s t.store)
    (howners : (∀ d, documentOf f id = some d → d.retiredAt = none) →
      ∀ record, recordAfter seq (documentOf f id) action = some record →
      action.create.isSome = true ∨ action.retire = true →
      OwnersKnown s claimed f (documentAddress record.toDocumentCreate)) :
    Ends (prepareAction o w seq writes claimed p id action) t
      (fun p' t' => Changed f seq (past ++ [(id, action)]) p' ∧ Still w f s t'.store)
      fun _ t' => Still w f s t'.store := by
  refine (document_known id h).bind ?_
  rintro existing t1 ⟨hexisting, h1⟩
  change existing = documentOf f id at hexisting
  subst hexisting
  split
  · exact .throw h1
  · rename_i hunretired
    have hunretired' : ∀ d, documentOf f id = some d → d.retiredAt = none := by
      intro d hd
      simpa [hd] using hunretired
    cases hrecord : recordAfter seq (documentOf f id) action with
    | none => exact .throw h1
    | some record =>
      have hinput := same_addInput p record
      have hp' : Changed f seq past (p.addInput record) :=
        ⟨by rw [hinput.records, hp.records], by rw [hinput.counts]; exact hp.counts, hp.unretired, hp.found⟩
      refine (countAction_known hp' hrecord h1 (howners hunretired' record hrecord)).bind ?_
      rintro p2 t2 ⟨⟨hrecords, hcounts⟩, h2⟩
      have hagain : Keeps (lookAgain o w id action) fun t => Still w f s t.store :=
        .ite (.map _ (keeps_get closed_still id)) (.pure _)
      refine Ends.bind (hagain.ends (Q := fun _ _ => True) (E := fun _ _ => True)
        (by unfold Ends; split <;> trivial) h2 |>.imp (fun _ _ hr => hr.2) fun _ _ he => he.2) ?_
      rintro ⟨⟩ t3 h3
      refine Ends.bind ((keeps_contentAction closed_still seq id _ _ action record).ends
        (contentAction_same seq id _ _ action record) h3 |>.imp (fun _ _ hr => hr) fun _ _ he => he.2) ?_
      rintro p4 t4 ⟨hsame, h4⟩
      have hlast := same_retire p4 id action record
      refine .pure ⟨⟨?_, ?_, ?_, ?_⟩, h4⟩
      · rw [hlast.records, hsame.records, List.filterMap_append, ← hp'.records, ← hrecords]
        unfold Changes.addRecord recordFor
        split
        · rename_i hbusy
          rw [List.filterMap_cons, if_pos hbusy, hrecord]
          rfl
        · rename_i hidle
          rw [List.filterMap_cons, if_neg hidle]
          exact (List.append_nil _).symm
      · rw [hlast.counts, hsame.counts]
        unfold Changes.addRecord
        split <;> exact hcounts
      · intro e he d hd
        obtain he | he := List.mem_append.mp he
        · exact hp.unretired e he d hd
        · rw [List.mem_singleton.mp he] at hd
          exact hunretired' d hd
      · intro e he
        obtain he | he := List.mem_append.mp he
        · exact hp.found e he
        · rw [List.mem_singleton.mp he, hrecord]
          rintro ⟨⟩

/-! ## The whole preparation -/

theorem exists_of_mem_right {α β : Type} {R : α → β → Prop} {l : List α} {l' : List β}
    (h : List.Forall₂ R l l') {b : β} (hb : b ∈ l') : ∃ a ∈ l, R a b := by
  induction h with
  | nil => cases hb
  | cons hab _ ih =>
    obtain rfl | hb := List.mem_cons.mp hb
    · exact ⟨_, List.mem_cons_self, hab⟩
    · obtain ⟨a, ha, hr⟩ := ih hb
      exact ⟨a, List.mem_cons_of_mem _ ha, hr⟩

/-- All that is known of a prepared batch, for a storage that knows the records `f`. -/
structure Accepted (f : Nat → Option IndexedRecord) (s : Store Op) (input : List (StorageWrite Op))
    (prepared : Prepared Op) (c : Claims Op) : Prop where
  seq : prepared.batch.seq = s.seq + 1
  resolved : List.Forall₂ StorageWrite.Resolves input prepared.batch.writes
  claimed : Claimed f s.nextId prepared.batch.writes c
  gathered : Gathered prepared.batch.writes c.actions
  nextId : prepared.batch.nextId = c.nextId
  records : prepared.changes.records =
    c.actions.entries.filterMap (recordFor f (s.seq + 1)) ++ valueRecords (s.seq + 1) prepared.batch.writes
  unretired : ∀ e ∈ c.actions.entries, ∀ d, documentOf f e.1 = some d → d.retiredAt = none
  found : ∀ e ∈ c.actions.entries, recordAfter (s.seq + 1) (documentOf f e.1) e.2 ≠ none
  counts : ∀ a n, IsCount f a n → n + (c.actions.entries.map (effect f (s.seq + 1) a)).sum ≤ 1

/-- The owners of all documents that are created or retired are known. -/
def AllOwnersKnown (f : Nat → Option IndexedRecord) (s : Store Op) (c : Claims Op) : Prop :=
  ∀ e ∈ c.actions.entries, (∀ d, documentOf f e.1 = some d → d.retiredAt = none) →
    ∀ record, recordAfter (s.seq + 1) (documentOf f e.1) e.2 = some record →
    e.2.create.isSome = true ∨ e.2.retire = true →
    OwnersKnown s c.claimed f (documentAddress record.toDocumentCreate)

theorem prepare_accepted (input : List (StorageWrite Op)) (h : Knows w f s)
    (howners : ∀ writes c, List.Forall₂ StorageWrite.Resolves input writes →
      Claimed f s.nextId writes c → Gathered writes c.actions → AllOwnersKnown f s c) :
    Ends (prepare o w input) { store := s }
      (fun prepared t' => (∃ c, Accepted f s input prepared c) ∧ Still w f s t'.store)
      fun _ t' => Still w f s t'.store := by
  have h0 : Still w f s s := ⟨h, rfl⟩
  unfold prepare
  refine ends_store_bind ?_
  dsimp only
  split
  · exact .throw h0
  · refine (Ends.mapM StorageWrite.Resolves (fun write t ht => resolveCopy_known _ write ht) input
      (I := fun t : Working Op => Still w f s t.store) h0).bind ?_
    rintro writes t1 ⟨hresolved, h1⟩
    have hplain : ∀ write ∈ writes, write.isCopy = false := by
      intro write hwrite
      obtain ⟨_, -, hr⟩ := exists_of_mem_right hresolved hwrite
      exact hr.plain
    refine (Ends.foldlM (fun past (c : Claims Op) (t : Working Op) => (Claimed f s.nextId past c ∧ Gathered past c.actions) ∧
      Still w f s t.store) writes (fun past write c t hwrite hc =>
        claimWrite_known (hplain write hwrite) hc.1.1 hc.1.2 hc.2) ?_).bind ?_
    · refine ⟨⟨⟨?_, ?_, ?_, ?_, Nat.le_refl _⟩, gathered_nil⟩, h1⟩
      · exact fun _ hx => by cases hx
      · exact fun _ hx => by cases hx
      · exact fun id kind hget => by simp [InsertionMap.get] at hget
      · exact fun _ hx => by cases hx
    · rintro c t2 ⟨⟨hclaimed, hgathered⟩, h2⟩
      have hall := howners writes c hresolved hclaimed hgathered
      refine (Ends.foldlM (fun past (p : Changes Op) (t : Working Op) => Changed f (s.seq + 1) past p ∧
        Still w f s t.store)
        c.actions.entries (fun past e p t he hp =>
          prepareAction_known hp.1 hp.2 (hall e he)) ?_).bind ?_
      · refine ⟨⟨rfl, fun a n _ => ?_, ?_, ?_⟩, h2⟩
        · simp [InsertionMap.get]
        · exact fun _ hx => by cases hx
        · exact fun _ hx => by cases hx
      · rintro p t3 ⟨hchanged, h3⟩
        split
        · exact .throw h3
        · rename_i hcounts
          rw [List.any_eq_true] at hcounts
          refine .pure ⟨⟨c, rfl, hresolved, hclaimed, hgathered, rfl, ?_, hchanged.unretired,
            hchanged.found, fun a n hn => ?_⟩, h3⟩
          · rw [hchanged.records]
          · rw [← hchanged.counts a n hn]
            cases hget : p.liveCounts.get a with
            | none => cases hn <;> decide
            | some count =>
              refine Int.not_lt.mp fun hlt => hcounts ⟨(a, count), InsertionMap.mem_entries.mpr hget, ?_⟩
              exact decide_eq_true hlt

end Preparation

end Overlay
end Durable
end PiCloud
