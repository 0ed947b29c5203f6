import PiCloud.Durable.OverlayAdoption
import PiCloud.Lib.Run

/-!
# Durable.OverlayRuns

Runs of one owner of a session: what its callers do, over a projection that follows the acknowledged
batches at its own pace.

* `Owner`, `Follows`, `owner`: the storage with the batches that were acknowledged, what a query may find,
  and the system.
* `Committed`: how a commit leaves the storage, case by case.
* `Knowing`, `knowing`: the storage of every reached state knows the records that all batches leave.
* `addresses_unique`: at most one document is current at an address.
* `reads_committed`: a read finds what a projection of all batches has.
-/

namespace PiCloud
namespace Durable
namespace Overlay

open Lib

section Owners

variable {Op : Type}

/-! ## The system -/

/-- A storage, with the rows at its opening and the batches that were acknowledged since. -/
structure Owner (Op : Type) where
  store : Store Op
  rows : InsertionMap Nat IndexedRecord
  /-- the last commit before the opening -/
  base : Nat
  log : List (Batch Op) := []

namespace Owner

variable (y : Owner Op)

/-- The rows once the projection has come to the `k`-th batch. -/
def rowsAt (k : Nat) : InsertionMap Nat IndexedRecord := (y.log.take k).foldl indexBatch y.rows

def content : Nat → Option IndexedRecord := (y.rowsAt y.log.length).get

def Follows (s : Store Op) (w : World Op) : Prop :=
  ∀ q db, w q = some db → ∃ k ≤ y.log.length, s.coldSeq ≤ y.base + k ∧ db.rows = y.rowsAt k

def preparing (o : Options Op) (around : Surroundings Op) : Store Op :=
  { makeRoom o y.store with nextId := (makeRoom o y.store).nextId + around.mintedBefore }

def Answers (o : Options Op) : Action Op → Prop
  | .commit around _ => y.Follows (y.preparing o around) around.world
  | .read world _ => y.Follows y.store world
  | _ => True

end Owner

def Outcome.batches : Outcome Op → List (Batch Op)
  | .committed (.accepted batch) => [batch]
  | _ => []

/-- The storage is opened on a projection that has come to the end. -/
structure Opened (y : Owner Op) : Prop where
  log : y.log = []
  seq : y.store.seq = y.base
  coldSeq : y.store.coldSeq = y.base
  coldNextId : y.store.coldNextId = y.store.nextId
  records : y.store.records = {}
  readCache : y.store.readCache = {}
  addresses : y.store.addresses = {}
  keys : ∀ id r, y.rows.get id = some r → r.id = id
  below : ∀ id r, y.rows.get id = some r → id < y.store.nextId
  empty : y.base = 0 → ∀ id, y.rows.get id = none
  unique : Unique y.rows.get

/-- What an action leaves. -/
def Owner.act (o : Options Op) (y : Owner Op) (a : Action Op) : Owner Op :=
  { y with
    store := (perform o y.store a).2
    log := y.log ++ (perform o y.store a).1.batches }

def owner (o : Options Op) : System (Owner Op) (Action Op) where
  init := Opened
  step y a y' := y.Answers o a ∧ y' = y.act o a

def Careful (o : Options Op) (y : Owner Op) : Action Op → Prop
  | .commit around input => Meets y.content (y.preparing o around) input
  | _ => True

namespace Owner

variable (y : Owner Op) (o : Options Op)

theorem act_read (world : World Op) (r : Read) :
    y.act o (.read world r) = { y with store := (readNow o world r y.store).2 } := by
  unfold act
  exact congrArg (fun log => ({ y with store := _, log } : Owner Op)) (List.append_nil _)

theorem act_mintId : y.act o .mintId = { y with store := (mintId y.store).2 } := by
  unfold act
  exact congrArg (fun log => ({ y with store := _, log } : Owner Op)) (List.append_nil _)

theorem act_flush (projected : Bool) :
    y.act o (.flush projected) = { y with store := (flush projected y.store).2 } := by
  unfold act
  exact congrArg (fun log => ({ y with store := _, log } : Owner Op)) (List.append_nil _)

theorem act_close : y.act o .close = { y with store := close y.store } := by
  unfold act
  exact congrArg (fun log => ({ y with store := _, log } : Owner Op)) (List.append_nil _)

end Owner

/-! ## How a commit ends -/

/-- The result of a commit from `s`, whose writes are prepared from `room`, and the storage after it. -/
inductive Committed (o : Options Op) (around : Surroundings Op) (input : List (StorageWrite Op))
    (s room : Store Op) : CommitResult Op → Store Op → Prop where
  | unchanged (message : String) : Committed o around input s room (.rejected message) s
  | invalid {message : String} {t : Working Op} (hopen : refusal s = none)
      (h : (prepare o around.world input).run { store := room } = (.error message, t)) :
      Committed o around input s room (.rejected message)
        { t.store with nextId := t.store.nextId + around.mintedAfter }
  | withheld (message : String) {prepared : Prepared Op} {t : Working Op} (hopen : refusal s = none)
      (h : (prepare o around.world input).run { store := room } = (.ok prepared, t)) :
      Committed o around input s room (.rejected message)
        { t.store with nextId := t.store.nextId + around.mintedAfter }
  | uncertain {prepared : Prepared Op} {t : Working Op} (hopen : refusal s = none)
      (h : (prepare o around.world input).run { store := room } = (.ok prepared, t)) :
      Committed o around input s room .uncertain
        { t.store with nextId := t.store.nextId + around.mintedAfter, failed := true }
  | accepted {prepared : Prepared Op} {t : Working Op} (hopen : refusal s = none)
      (h : (prepare o around.world input).run { store := room } = (.ok prepared, t)) :
      Committed o around input s room (.accepted prepared.batch)
        (t.store.adopt prepared around.bytes around.mintedAfter)

theorem commit_committed (o : Options Op) (around : Surroundings Op) (input : List (StorageWrite Op))
    (y : Owner Op) : Committed o around input y.store (y.preparing o around)
      (commit o around input y.store).1 (commit o around input y.store).2 := by
  unfold commit
  split
  · exact .unchanged _
  · rename_i hopen
    split
    · exact .unchanged _
    · split
      · exact .unchanged _
      · dsimp only
        split
        · exact .invalid hopen ‹_›
        · split
          · exact .withheld _ hopen ‹_›
          · split
            · exact .withheld _ hopen ‹_›
            · exact .uncertain hopen ‹_›
            · exact .accepted hopen ‹_›

/-! ## What every reached storage knows -/

namespace Owner

variable {y : Owner Op}

theorem rowsAt_append (log : List (Batch Op)) {k : Nat} (hk : k ≤ y.log.length) :
    { y with log := y.log ++ log }.rowsAt k = y.rowsAt k := by
  unfold rowsAt
  rw [List.take_append_of_le_length hk]

theorem rowsAt_last (batch : Batch Op) (s : Store Op) :
    { y with store := s, log := y.log ++ [batch] }.content = after y.content batch := by
  unfold content rowsAt
  rw [List.take_length, List.take_length, List.foldl_append]
  exact get_indexBatch _ batch

end Owner

/-- The records of the batches so far, and the storage's knowledge of them. -/
structure Knowing (y : Owner Op) : Prop where
  seq : y.store.seq = y.base + y.log.length
  cold : y.store.coldSeq ≤ y.store.seq
  below : ∀ id r, y.content id = some r → id < y.store.nextId
  knows : Knows (fun _ => none) y.content y.store
  lag : ∀ k ≤ y.log.length, y.store.coldSeq ≤ y.base + k → ∀ id, y.store.records.get id = none →
    (y.rowsAt k).get id = y.content id

/-- What holds of the batches. -/
structure Sound (y : Owner Op) : Prop where
  keys : ∀ k id r, (y.rowsAt k).get id = some r → r.id = id
  empty : y.base = 0 → ∀ id, y.rows.get id = none
  unique : ∀ k, Unique (y.rowsAt k).get
  kinds : ∀ k < y.log.length, ∀ id r, (y.rowsAt k).get id = some r →
    ∃ r', (y.rowsAt (k + 1)).get id = some r' ∧ r'.kind = r.kind
  contents : ∀ batch ∈ y.log, (batch.writes.filterMap StorageWrite.contentId).Nodup

/-- A storage that does not refuse its callers knows the records. -/
structure Inv (y : Owner Op) : Prop where
  sound : Sound y
  knowing : refusal y.store = none → Knowing y

namespace Knowing

variable {o : Options Op} {y : Owner Op} {w : World Op}

theorem follows (h : Knowing y) (hsound : Sound y) (hw : y.Follows y.store w) :
    Knows w y.content y.store where
  keys := h.knows.keys
  unique := h.knows.unique
  overlay := h.knows.overlay
  absent := h.knows.absent
  readCache := h.knows.readCache
  addresses := h.knows.addresses
  rowKeys q db id r hdb hget := by
    obtain ⟨k, -, -, hrows⟩ := hw q db hdb
    rw [hrows] at hget
    exact hsound.keys k id r hget
  rows q db id hdb hget := by
    obtain ⟨k, hk, hcold, hrows⟩ := hw q db hdb
    rw [hrows]
    exact h.lag k hk hcold id hget

theorem mint (h : Knowing y) (n : Nat) :
    Knowing { y with store := { y.store with nextId := y.store.nextId + n } } where
  seq := h.seq
  cold := h.cold
  below id r hr := Nat.lt_of_lt_of_le (h.below id r hr) (Nat.le_add_right ..)
  knows := { h.knows with }
  lag := h.lag

theorem drained (h : Knowing y) (hsound : Sound y) :
    Knowing { y with store := y.store.drained } where
  seq := h.seq
  cold := Nat.le_refl _
  below := h.below
  knows :=
    { keys := h.knows.keys
      unique := h.knows.unique
      overlay := fun _ _ hr => by cases hr
      absent := fun id _ hcold => by
        obtain hzero | hnext := hcold
        · have hseq : y.store.seq = 0 := hzero
          rw [h.seq, Nat.add_eq_zero_iff] at hseq
          have hlog := List.eq_nil_of_length_eq_zero hseq.2
          have hcontent : y.content = y.rows.get := by
            unfold Owner.content Owner.rowsAt
            rw [hlog]
            rfl
          exact (congrFun hcontent id).trans (hsound.empty hseq.1 id)
        · cases hr : y.content id with
          | none => exact hr
          | some r => exact absurd (h.below id r hr) (Nat.not_lt.mpr hnext)
      rowKeys := fun _ _ _ _ hdb => by cases hdb
      rows := fun _ _ _ hdb => by cases hdb
      readCache := fun _ _ _ hcache => by cases hcache
      addresses := fun _ _ hcache => by cases hcache }
  lag k hk hcold id _ := by
    have hseq : y.store.seq ≤ y.base + k := hcold
    rw [h.seq] at hseq
    obtain rfl : k = y.log.length := Nat.le_antisymm hk (Nat.le_of_add_le_add_left hseq)
    rfl

theorem makeRoom (o : Options Op) (h : Knowing y) (hsound : Sound y) :
    Knowing { y with store := Overlay.makeRoom o y.store } := by
  unfold Overlay.makeRoom
  split
  · exact h.drained hsound
  · exact h

theorem preparing (h : Knowing y) (hsound : Sound y) (around : Surroundings Op) :
    Knowing { y with store := y.preparing o around } :=
  (h.makeRoom o hsound).mint around.mintedBefore

theorem still {s' : Store Op} (h : Knowing y) (hs : Still w y.content y.store s') :
    Knowing { y with store := s' } := by
  have hseq : s'.held.seq = y.store.held.seq := by rw [hs.held]
  have hcold : s'.held.coldSeq = y.store.held.coldSeq := by rw [hs.held]
  have hnext : s'.held.nextId = y.store.held.nextId := by rw [hs.held]
  have hrecords : s'.held.records = y.store.held.records := by rw [hs.held]
  change s'.seq = y.store.seq at hseq
  change s'.coldSeq = y.store.coldSeq at hcold
  change s'.nextId = y.store.nextId at hnext
  change s'.records = y.store.records at hrecords
  refine ⟨?_, ?_, fun id r hr => ?_, ?_, fun k hk hle id hid => ?_⟩
  · exact hseq.trans h.seq
  · exact (hcold.trans_le h.cold).trans_eq hseq.symm
  · exact (h.below id r hr).trans_eq hnext.symm
  · exact { hs.knows with rowKeys := fun _ _ _ _ hdb => (by cases hdb), rows := fun _ _ _ hdb => (by cases hdb) }
  · exact h.lag k hk (hcold ▸ hle) id (hrecords ▸ hid)

theorem adopted {input : List (StorageWrite Op)} {s' : Store Op} {prepared : Prepared Op} {c : Claims Op}
    (h : Knowing y) (hs : Still w y.content y.store s')
    (haccepted : Accepted y.content y.store input prepared c) (hmeets : Meets y.content y.store input)
    (bytes minted : Nat) :
    Knowing { y with store := s'.adopt prepared bytes minted, log := y.log ++ [prepared.batch] } := by
  have hs' := h.still hs
  have hkeys := h.knows.keys
  have hcontent : { y with store := s'.adopt prepared bytes minted, log := y.log ++ [prepared.batch] }.content
      = after y.content prepared.batch := Owner.rowsAt_last _ _
  have hlast : (y.log ++ [prepared.batch]).length = y.log.length + 1 := List.length_append
  have hcold : s'.coldSeq ≤ s'.seq := hs'.cold
  have hseq : s'.seq = y.base + y.log.length := hs'.seq
  have hstart : y.store.seq = y.base + y.log.length := h.seq
  refine ⟨?_, ?_, fun id r hr => ?_, ?_, fun k hk hle id hid => ?_⟩
  · change (s'.adopt prepared bytes minted).seq = y.base + (y.log ++ [prepared.batch]).length
    rw [adopt_seq, haccepted.seq, hlast, hstart, Nat.add_assoc]
  · change (s'.adopt prepared bytes minted).coldSeq ≤ (s'.adopt prepared bytes minted).seq
    rw [adopt_seq, adopt_coldSeq, haccepted.seq, hstart]
    omega
  · change id < (s'.adopt prepared bytes minted).nextId
    rw [adopt_nextId]
    rw [hcontent] at hr
    exact Nat.lt_of_lt_of_le (haccepted.after_below h.below hr) (Nat.le_max_right ..)
  · rw [hcontent]
    exact adopt_knows hs haccepted hmeets bytes minted (fun _ _ _ _ hdb => (by cases hdb))
      (fun _ _ _ hdb => (by cases hdb))
  · change (s'.adopt prepared bytes minted).coldSeq ≤ y.base + k at hle
    change (s'.adopt prepared bytes minted).records.get id = none at hid
    rw [adopt_coldSeq] at hle
    rw [adopt_records, get_putAll, Option.or_eq_none_iff] at hid
    rw [hlast] at hk
    obtain hk | rfl := Nat.le_succ_iff.mp hk
    · have hrows : { y with store := s'.adopt prepared bytes minted, log := y.log ++ [prepared.batch] }.rowsAt k
          = y.rowsAt k := Owner.rowsAt_append [prepared.batch] hk
      rw [hrows, hcontent, (haccepted.untouched hkeys hid.1).1]
      exact hs'.lag k hk hle id hid.2
    · have hwhole : y.log.length.succ = (y.log ++ [prepared.batch]).length := hlast.symm
      rw [hwhole]
      rfl

end Knowing

/-! ## The run -/

theorem Owner.rowsAt_of_le {y : Owner Op} {k : Nat} (hk : y.log.length ≤ k) :
    (y.rowsAt k).get = y.content := by
  unfold content rowsAt
  rw [List.take_of_length_le hk, List.take_length]

theorem Owner.rowsAt_next (y : Owner Op) (s : Store Op) (batch : Batch Op) (k : Nat) :
    ({ y with store := s, log := y.log ++ [batch] }.rowsAt k).get = (y.rowsAt k).get ∧ k ≤ y.log.length ∨
      ({ y with store := s, log := y.log ++ [batch] }.rowsAt k).get = after y.content batch ∧
        y.log.length < k := by
  obtain hk | hk := Nat.lt_or_ge y.log.length k
  · refine .inr ⟨?_, hk⟩
    have hle : (y.log ++ [batch]).length ≤ k := by
      rw [List.length_append]
      exact hk
    exact (Owner.rowsAt_of_le (y := { y with store := s, log := y.log ++ [batch] }) hle).trans
      (Owner.rowsAt_last batch s)
  · exact .inl ⟨congrArg InsertionMap.get (Owner.rowsAt_append (y := { y with store := s }) [batch] hk), hk⟩

namespace Sound

variable {y : Owner Op}

theorem withStore (h : Sound y) (s : Store Op) : Sound { y with store := s } :=
  ⟨h.keys, h.empty, h.unique, h.kinds, h.contents⟩

theorem adopted {s s' : Store Op} {input : List (StorageWrite Op)} {prepared : Prepared Op} {c : Claims Op}
    (h : Sound y) (haccepted : Accepted y.content s input prepared c) :
    Sound { y with store := s', log := y.log ++ [prepared.batch] } := by
  have hkeys : ∀ id r, y.content id = some r → r.id = id := h.keys _
  refine ⟨fun k id r hr => ?_, h.empty, fun k => ?_, fun k hk id r hr => ?_, fun batch hb => ?_⟩
  · obtain ⟨hrows, -⟩ | ⟨hrows, -⟩ := y.rowsAt_next s' prepared.batch k
    · rw [hrows] at hr
      exact h.keys k id r hr
    · rw [hrows] at hr
      exact Accepted.after_keys hkeys _ hr
  · obtain ⟨hrows, -⟩ | ⟨hrows, -⟩ := y.rowsAt_next s' prepared.batch k
    · rw [hrows]
      exact h.unique k
    · rw [hrows]
      exact haccepted.unique hkeys (h.unique _)
  · have hle : k ≤ y.log.length := by
      change k < (y.log ++ [prepared.batch]).length at hk
      rw [List.length_append] at hk
      exact Nat.le_of_lt_succ hk
    obtain ⟨hrows, -⟩ | ⟨-, hlt⟩ := y.rowsAt_next s' prepared.batch k
    · rw [hrows] at hr
      obtain ⟨hnext, hk'⟩ | ⟨hnext, hk'⟩ := y.rowsAt_next s' prepared.batch (k + 1)
      · rw [hnext]
        exact h.kinds k hk' id r hr
      · rw [hnext]
        obtain rfl : k = y.log.length := Nat.le_antisymm hle (Nat.le_of_lt_succ hk')
        exact haccepted.kind_kept hkeys hr
    · exact absurd hlt (Nat.not_lt.mpr hle)
  · obtain hb | hb := List.mem_append.mp hb
    · exact h.contents batch hb
    · rw [List.mem_singleton.mp hb]
      exact haccepted.gathered.contents

end Sound

namespace Inv

variable {o : Options Op} {y y' : Owner Op}

theorem opened (h : Opened y) : Inv y := by
  have hcontent : ∀ k, y.rowsAt k = y.rows := by
    intro k
    unfold Owner.rowsAt
    rw [h.log, List.take_nil]
    rfl
  have hall : y.content = y.rows.get := congrArg InsertionMap.get (hcontent _)
  refine ⟨⟨fun k id r hr => ?_, h.empty, fun k => ?_, fun k hk => ?_, fun batch hb => ?_⟩, fun _ => ?_⟩
  · rw [hcontent] at hr
    exact h.keys id r hr
  · rw [hcontent]
    exact h.unique
  · rw [h.log] at hk
    exact absurd hk (Nat.not_lt_zero k)
  · rw [h.log] at hb
    cases hb
  · refine ⟨?_, ?_, fun id r hr => ?_, ?_, fun k _ _ id _ => ?_⟩
    · rw [h.log]
      exact h.seq
    · exact (h.coldSeq.trans h.seq.symm).le
    · rw [hall] at hr
      exact h.below id r hr
    · rw [hall]
      refine ⟨h.keys, h.unique, ?_, fun id _ hcold => ?_, ?_, ?_, ?_, ?_⟩
      · rw [h.records]
        exact fun _ _ hr => by cases hr
      · rw [h.coldSeq, h.coldNextId] at hcold
        obtain hzero | hnext := hcold
        · exact h.empty hzero id
        · cases hr : y.rows.get id with
          | none => rfl
          | some r => exact absurd (h.below id r hr) (Nat.not_lt.mpr hnext)
      · exact fun _ _ _ _ hdb => by cases hdb
      · exact fun _ _ _ hdb => by cases hdb
      · rw [h.readCache]
        exact fun _ _ _ hcache => by cases hcache
      · rw [h.addresses]
        exact fun _ _ hcache => by cases hcache
    · rw [hcontent, hall]

theorem withStore {s : Store Op} (h : Inv y) (hs : refusal s = none → Knowing { y with store := s }) :
    Inv { y with store := s } :=
  ⟨h.sound.withStore s, hs⟩

theorem commit (around : Surroundings Op) (input : List (StorageWrite Op)) (h : Inv y)
    (hworld : y.Follows (y.preparing o around) around.world)
    (hmeets : Meets y.content (y.preparing o around) input) :
    Inv { y with
      store := (Overlay.commit o around input y.store).2
      log := y.log ++ (Outcome.committed (Overlay.commit o around input y.store).1).batches } := by
  have hcases := commit_committed o around input y
  generalize (Overlay.commit o around input y.store).1 = result at hcases ⊢
  generalize (Overlay.commit o around input y.store).2 = s' at hcases ⊢
  -- what the preparation came to, wherever the storage takes the batch on
  have hprepared : refusal y.store = none →
      Knowing { y with store := y.preparing o around } ∧
        Ends (prepare o around.world input) { store := y.preparing o around }
          (fun prepared t => (∃ c, Accepted y.content (y.preparing o around) input prepared c) ∧
            Still around.world y.content (y.preparing o around) t.store)
          fun _ t => Still around.world y.content (y.preparing o around) t.store := by
    intro hopen
    have hroom := (h.knowing hopen).preparing (o := o) h.sound around
    have hknows : Knows around.world y.content (y.preparing o around) :=
      hroom.follows (h.sound.withStore _) hworld
    exact ⟨hroom, prepare_accepted input hknows fun _ _ hresolved hclaimed hgathered =>
      hmeets.allOwners hknows hresolved hclaimed hgathered⟩
  cases hcases with
  | unchanged =>
    rw [show (Outcome.committed (CommitResult.rejected _ : CommitResult Op)).batches = [] from rfl,
      List.append_nil]
    exact h
  | invalid hopen hrun =>
    rw [show (Outcome.committed (CommitResult.rejected _ : CommitResult Op)).batches = [] from rfl,
      List.append_nil]
    obtain ⟨hroom, hends⟩ := hprepared hopen
    unfold Ends at hends
    rw [hrun] at hends
    exact h.withStore fun _ => (hroom.still hends).mint _
  | withheld _ hopen hrun =>
    rw [show (Outcome.committed (CommitResult.rejected _ : CommitResult Op)).batches = [] from rfl,
      List.append_nil]
    obtain ⟨hroom, hends⟩ := hprepared hopen
    unfold Ends at hends
    rw [hrun] at hends
    exact h.withStore fun _ => (hroom.still hends.2).mint _
  | uncertain hopen hrun =>
    rw [show (Outcome.committed (CommitResult.uncertain : CommitResult Op)).batches = [] from rfl,
      List.append_nil]
    refine h.withStore fun hrefusal => ?_
    unfold refusal at hrefusal
    split at hrefusal <;> cases hrefusal
  | accepted hopen hrun =>
    obtain ⟨hroom, hends⟩ := hprepared hopen
    unfold Ends at hends
    rw [hrun] at hends
    obtain ⟨⟨c, haccepted⟩, hstill⟩ := hends
    exact ⟨h.sound.adopted haccepted, fun _ => hroom.adopted hstill haccepted hmeets _ _⟩

theorem serial {s : Store Op} (h : Inv y) (hrefused : ∀ message, refusal y.store = some message → s = y.store)
    (hs : refusal y.store = none → Knowing { y with store := s }) : Inv { y with store := s } := by
  refine h.withStore fun hopen => ?_
  cases hrefusal : refusal y.store with
  | some message =>
    rw [hrefused message hrefusal, hrefusal] at hopen
    cases hopen
  | none => exact hs hrefusal

theorem read (world : World Op) (r : Read) (h : Inv y) (hworld : y.Follows y.store world) :
    Inv { y with store := (readNow o world r y.store).2 } := by
  refine h.serial (fun message hrefusal => ?_) fun hopen => ?_
  · unfold readNow
    rw [hrefusal]
  · have hknowing := h.knowing hopen
    have hstill : Still world y.content y.store y.store := ⟨hknowing.follows h.sound hworld, rfl⟩
    unfold readNow
    rw [hopen]
    exact hknowing.still (keeps_answer closed_still r _ hstill)

theorem minted (h : Inv y) : Inv { y with store := (mintId y.store).2 } := by
  refine h.serial (fun message hrefusal => ?_) fun hopen => ?_
  · unfold mintId
    rw [hrefusal]
  · unfold mintId
    rw [hopen]
    dsimp only
    split
    · exact h.knowing hopen
    · exact (h.knowing hopen).mint 1

theorem flushed (projected : Bool) (h : Inv y) :
    Inv { y with store := (flush projected y.store).2 } := by
  refine h.serial (fun message hrefusal => ?_) fun hopen => ?_
  · unfold flush
    rw [hrefusal]
  · unfold flush
    rw [hopen]
    dsimp only
    split
    · exact h.knowing hopen
    · split
      · exact (h.knowing hopen).drained h.sound
      · exact h.knowing hopen

theorem closed (h : Inv y) : Inv { y with store := close y.store } :=
  h.withStore fun hopen => by
    unfold refusal close at hopen
    cases hopen

theorem step {a : Action Op} (h : Inv y) (ha : Careful o y a) (hstep : (owner o).step y a y') : Inv y' := by
  obtain ⟨hworld, rfl⟩ := hstep
  cases a with
  | commit around input => exact h.commit around input hworld ha
  | read world r => exact y.act_read o world r ▸ h.read world r hworld
  | mintId => exact y.act_mintId o ▸ h.minted
  | flush projected => exact y.act_flush o projected ▸ h.flushed projected
  | close => exact y.act_close o ▸ h.closed

theorem reach {as : List (Action Op)} (h : Reach ((owner o).guard (Careful o)) as y) : Inv y := by
  refine h.invariant Inv (fun _ => opened) ?_
  intro y a y' hy hstep
  exact step hy hstep.1 hstep.2

end Inv

/-- In every run whose commits meet the condition, at most one document is current at an address after
any number of the accepted batches, the kind of a record never changes, and no accepted batch has two
contents for one document. -/
theorem addresses_unique {o : Options Op} {y : Owner Op} {as : List (Action Op)}
    (h : Reach ((owner o).guard (Careful o)) as y) :
    (∀ k, Unique (y.rowsAt k).get) ∧
      (∀ k l, k ≤ l → l ≤ y.log.length → ∀ id r, (y.rowsAt k).get id = some r →
        ∃ r', (y.rowsAt l).get id = some r' ∧ r'.kind = r.kind) ∧
      ∀ batch ∈ y.log, (batch.writes.filterMap StorageWrite.contentId).Nodup := by
  have hsound := (Inv.reach h).sound
  refine ⟨hsound.unique, fun k l hkl hl id r hr => ?_, hsound.contents⟩
  induction l, hkl using Nat.le_induction with
  | base => exact ⟨r, hr, rfl⟩
  | succ l _ ih =>
    obtain ⟨r', hr', hkind⟩ := ih (Nat.le_of_succ_le hl)
    obtain ⟨r'', hr'', hkind'⟩ := hsound.kinds l hl id r' hr'
    exact ⟨r'', hr'', hkind'.trans hkind⟩

end Owners

/-! ## What is read in a run -/

section Reading

variable {Op : Type} {w : World Op}

/-- While the storage refuses nothing, what is read is what a projection of all the batches so far has,
however far behind the projection is that the queries find. -/
theorem reads_committed {o : Options Op} {y : Owner Op} {as : List (Action Op)}
    (h : Reach ((owner o).guard (Careful o)) as y) (hopen : refusal y.store = none)
    (hw : y.Follows y.store w) {db : Database Op} (hdb : db.rows = y.rowsAt y.log.length) :
    (∀ id, Ends (get o w id) { store := y.store } (fun r _ => r = db.rows.get id) fun _ _ => True) ∧
      (∀ a, Ends (findDocument w a .current) { store := y.store }
        (fun found _ => IsCurrent db.rows.get a found) fun _ _ => True) ∧
      ∀ query limit, Ends (scan w query limit) { store := y.store }
        (fun rows _ => rows = db.scan query limit []) fun _ _ => True := by
  have hinv := Inv.reach h
  have hknows : Knows w y.content y.store := (hinv.knowing hopen).follows hinv.sound hw
  have hcontent : db.rows.get = y.content := congrArg InsertionMap.get hdb
  rw [hcontent]
  refine ⟨fun id => ?_, fun a => ?_, fun query limit => ?_⟩
  · exact (get_known id ⟨hknows, rfl⟩).imp (fun _ _ hr => hr.1) fun _ _ _ => trivial
  · exact (findDocument_known a ⟨hknows, rfl⟩).imp (fun _ _ hr => hr.1) fun _ _ _ => trivial
  · refine (scan_scanned query limit).imp (fun rows _ hr => ?_) fun _ _ _ => trivial
    obtain ⟨all, hids, hall, rfl⟩ := hknows.scanned_all hr.1
    have hkeys : ∀ id r, db.rows.get id = some r → r.id = id := hcontent ▸ hknows.keys
    have hperm : all.Perm (db.records.filter fun r => matchesRecord r query && r.id ∉ ([] : List Nat)) := by
      refine (List.perm_ext_iff_of_nodup (.of_map _ hids)
        ((List.Nodup.of_map _ (ids_nodup hkeys)).filter _)).mpr fun r => ?_
      have hmem : r ∈ db.rows.entries.map Prod.snd ↔ db.rows.get r.id = some r :=
        Store.mem_overlay (s := { y.store with records := db.rows }) hkeys
      rw [hall, List.mem_filter, hmem, hcontent]
      simp only [List.not_mem_nil, not_false_eq_true, decide_true, Bool.and_true]
    have hdual : (all.map fun r => OrderDual.toDual r.id).Nodup := hids
    unfold Database.scan inOrder
    split
    · rw [sortBy_perm hperm hdual]
    · rw [sortBy_perm hperm hids]

end Reading

/-! ## A document that the projection alone has -/

def plainOptions : Options Unit where
  applyImmutableBatches value _ := .ok value
  recordBytes _ := 0

def note (id : Nat) : DocumentCreate := { id, kind := "note", scope := .session }

def noteRows : InsertionMap Nat IndexedRecord :=
  ({} : InsertionMap Nat IndexedRecord).set 1 (.document { note 1 with createdAt := 1 })

def noteWorld : World Unit := fun _ =>
  some { rows := noteRows, revisions := fun _ _ => .ok [], latestRevision := fun _ => .ok none }

/-- The first commit of the session has created a note, and a new owner has opened it. -/
def noteOwner : Owner Unit where
  store := { seq := 1, nextId := 3, coldSeq := 1, coldNextId := 3 }
  rows := noteRows
  base := 1

theorem get_noteRows {id : Nat} {r : IndexedRecord} (h : noteRows.get id = some r) :
    id = 1 ∧ r = .document { note 1 with createdAt := 1 } := by
  unfold noteRows at h
  rw [InsertionMap.get_set] at h
  split at h
  · exact ⟨‹_›, (Option.some.inj h).symm⟩
  · cases h

theorem opened_noteOwner : Opened noteOwner where
  log := rfl
  seq := rfl
  coldSeq := rfl
  coldNextId := rfl
  records := rfl
  readCache := rfl
  addresses := rfl
  keys id r h := by
    obtain ⟨rfl, rfl⟩ := get_noteRows h
    rfl
  below id r h := by
    obtain ⟨rfl, -⟩ := get_noteRows h
    decide
  empty h := by cases h
  unique a d e hd he := by
    have hd' := (get_noteRows hd.stored).2
    have he' := (get_noteRows he.stored).2
    exact IndexedRecord.document.inj (hd'.trans he'.symm)

theorem noteWorld_follows {y : Owner Unit} (s : Store Unit) (hs : s.coldSeq ≤ y.base)
    (hrows : y.rows = noteRows) : y.Follows s noteWorld := by
  rintro q db hdb
  cases hdb
  exact ⟨0, Nat.zero_le _, hs, hrows.symm⟩

def addNote : Action Unit :=
  .commit { world := noteWorld } [.documentCreate { note 3 with key := some [107] } (.base 1 [])]

theorem careful_addNote (o : Options Unit) : Careful o noteOwner addNote := by
  refine ⟨fun _ _ _ _ record _ _ hretired => (nomatch hretired), fun a d hd _ hnew => ?_⟩
  obtain ⟨owner, howner, -⟩ := hnew
  rw [← hd.address, IndexedRecord.document.inj (get_noteRows hd.stored).2] at howner
  cases howner

theorem addresses_unique_noteOwner :
    (noteOwner.act plainOptions addNote).log.length = 1 ∧
      ∀ k, Unique ((noteOwner.act plainOptions addNote).rowsAt k).get := by
  have h0 : Reach ((owner plainOptions).guard (Careful plainOptions)) [] noteOwner := .init opened_noteOwner
  exact ⟨rfl, (addresses_unique
    (h0.next ⟨careful_addNote plainOptions, noteWorld_follows _ (Nat.le_refl 1) rfl, rfl⟩)).1⟩

/-- The projection has not come to the second note. -/
theorem reads_committed_noteOwner :
    Ends (scan noteWorld { kind := .document } 5) { store := (noteOwner.act plainOptions addNote).store }
      (fun rows _ => rows = (⟨(noteOwner.act plainOptions addNote).rowsAt 1, fun _ _ => .ok [],
        fun _ => .ok none⟩ : Database Unit).scan { kind := .document } 5 []) fun _ _ => True := by
  have h0 : Reach ((owner plainOptions).guard (Careful plainOptions)) [] noteOwner := .init opened_noteOwner
  exact (reads_committed (h0.next ⟨careful_addNote plainOptions, noteWorld_follows _ (Nat.le_refl 1) rfl, rfl⟩)
    rfl (noteWorld_follows _ (Nat.le_refl 1) rfl) rfl).2.2 _ _

def passNote : Action Unit :=
  .commit { world := noteWorld } [.documentCreate (note 3) (.base 1 []), .documentRetire 3]

def againNote : Action Unit :=
  .commit { world := noteWorld } [.documentCreate (note 4) (.base 1 [])]

/-- Both batches are accepted, and the first note and the last one are current at one address. -/
theorem addresses_two_notes :
    ∃ y : Owner Unit, Reach (owner plainOptions) [passNote, againNote] y ∧ y.log.length = 2 ∧
      ¬ Unique (y.rowsAt 2).get := by
  have h0 : Reach (owner plainOptions) [] noteOwner := .init opened_noteOwner
  have h1 : Reach (owner plainOptions) [passNote] (noteOwner.act plainOptions passNote) :=
    h0.next ⟨noteWorld_follows _ (Nat.le_refl 1) rfl, rfl⟩
  have h2 : Reach (owner plainOptions) [passNote, againNote]
      ((noteOwner.act plainOptions passNote).act plainOptions againNote) :=
    h1.next ⟨noteWorld_follows _ (Nat.le_refl 1) rfl, rfl⟩
  refine ⟨_, h2, rfl, fun hunique => ?_⟩
  · have hfirst : Holds (((noteOwner.act plainOptions passNote).act plainOptions againNote).rowsAt 2).get
        (documentAddress (note 1)) { note 1 with createdAt := 1 } := ⟨rfl, rfl, rfl⟩
    have hlast : Holds (((noteOwner.act plainOptions passNote).act plainOptions againNote).rowsAt 2).get
        (documentAddress (note 1)) { note 4 with createdAt := 3 } := ⟨rfl, rfl, rfl⟩
    have := congrArg (fun d : Document => d.id) (hunique _ _ _ hfirst hlast)
    exact absurd this (by decide)

end Overlay
end Durable
end PiCloud
