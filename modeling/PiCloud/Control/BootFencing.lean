import PiCloud.Control.SupervisorRetirement

/-!
# Control.BootFencing

What holds of every host whatever its boots and the control planes do.

* `Sound`: one credential and one active connection a host; a retirement leaves a stopped worker.
* `Kept`: what a transaction never takes back; `Moves` is both.
* `fenceSandbox_spec`, `connect_moves`, `register_cases`: the transactions, one lemma each.
* `boots_fenced`: the two over every run, with who completes a retirement.
-/

namespace PiCloud
namespace Supervisor

open Lib (Table Steps Reach bind_some guard_some ite_some)

/-! ## What holds, and what is kept -/

structure Sound (db : Db) : Prop where
  credential : ∀ c d p q, db.credentials.get c = some p → db.credentials.get d = some q →
    p.supervisorId = q.supervisorId → p.revokedAt = none → q.revokedAt = none → c = d
  worker : ∀ c p, db.connections.get c = some p → ∃ w, db.workers.get p.workerId = some w ∧
    w.supervisorId = p.supervisorId ∧ w.bootId = p.bootId
  alone : ∀ c d p q, db.connections.get c = some p → db.connections.get d = some q →
    p.supervisorId = q.supervisorId → p.state = .active → q.state = .active → c = d
  retired : ∀ id r, db.retirements.get id = some r → ∃ w, db.workers.get id = some w ∧
    w.supervisorId = r.supervisorId ∧ w.bootId = r.bootId ∧ w.state.Stopped
  silent : ∀ id r c p, db.retirements.get id = some r → db.connections.get c = some p →
    p.workerId = id → p.state ≠ .active
  terminated : ∀ id w, db.workers.get id = some w → w.state = .terminated →
    (db.retirements.get id).isSome
  fenced : ∀ c p reason closedAt, db.connections.get c = some p →
    p.state = .fenced reason closedAt → (db.retirements.get p.workerId).isSome
  fences : ∀ id ∈ db.fences, (db.retirements.get id).isSome

/-- What a transaction never takes back. -/
structure Kept (db db' : Db) : Prop where
  worker : ∀ id w, db.workers.get id = some w → ∃ w', db'.workers.get id = some w' ∧
    w'.supervisorId = w.supervisorId ∧ w'.bootId = w.bootId ∧
    (w.state.Stopped → w'.state.Stopped) ∧ (w.state = .terminated → w'.state = .terminated)
  connection : ∀ c p, db.connections.get c = some p → ∃ p', db'.connections.get c = some p' ∧
    p'.workerId = p.workerId ∧ p'.supervisorId = p.supervisorId
  closed : ∀ c p, db.connections.get c = some p → p.state ≠ .active →
    db'.connections.get c = some p
  opened : ∀ id w c p', db.workers.get id = some w → w.state.Stopped →
    db'.connections.get c = some p' → p'.workerId = id → p'.state = .active →
    ∃ p, db.connections.get c = some p ∧ p.workerId = id ∧ p.state = .active
  retirement : ∀ id, (db.retirements.get id).isSome → (db'.retirements.get id).isSome

theorem Kept.refl (db : Db) : Kept db db where
  worker _ w hw := ⟨w, hw, rfl, rfl, fun hw => hw, fun hw => hw⟩
  connection _ p hp := ⟨p, hp, rfl, rfl⟩
  closed _ _ hp _ := hp
  opened _ _ _ p _ _ hp hid hactive := ⟨p, hp, hid, hactive⟩
  retirement _ h := h

theorem Kept.trans {db db' db'' : Db} (h : Kept db db') (h' : Kept db' db'') : Kept db db'' where
  worker id w hw := by
    obtain ⟨x, hx, hxs, hxb, hxstop, hxterm⟩ := h.worker id w hw
    obtain ⟨y, hy, hys, hyb, hystop, hyterm⟩ := h'.worker id x hx
    exact ⟨y, hy, hys.trans hxs, hyb.trans hxb, hystop ∘ hxstop, hyterm ∘ hxterm⟩
  connection c p hp := by
    obtain ⟨x, hx, hxw, hxs⟩ := h.connection c p hp
    obtain ⟨y, hy, hyw, hys⟩ := h'.connection c x hx
    exact ⟨y, hy, hyw.trans hxw, hys.trans hxs⟩
  closed c p hp hclosed := h'.closed c p (h.closed c p hp hclosed) hclosed
  opened id w c p hw hstop hp hid hactive := by
    obtain ⟨x, hx, -, -, hxstop, -⟩ := h.worker id w hw
    obtain ⟨q, hq, hqid, hqactive⟩ := h'.opened id x c p hx (hxstop hstop) hp hid hactive
    exact h.opened id w c q hw hstop hq hqid hqactive
  retirement id hid := h'.retirement id (h.retirement id hid)

/-- A transaction from one sound database to another that completes no retirement. -/
structure Moves (db db' : Db) : Prop where
  sound : Sound db'
  kept : Kept db db'
  completed : ∀ id r completedAt, db'.retirements.get id = some r →
    r.state = .completed completedAt → db.retirements.get id = some r

theorem Sound.moves {db : Db} (h : Sound db) : Moves db db := ⟨h, .refl db, fun _ _ _ hr _ => hr⟩

theorem Moves.trans {db db' db'' : Db} (h : Moves db db') (h' : Moves db' db'') :
    Moves db db'' where
  sound := h'.sound
  kept := h.kept.trans h'.kept
  completed id r at' hr hst := h.completed id r at' (h'.completed id r at' hr hst) hst

theorem Sound.empty : Sound .empty where
  credential := nofun
  worker := nofun
  alone := nofun
  retired := nofun
  silent := nofun
  terminated := nofun
  fenced := nofun
  fences := nofun

section Rows
variable {db : Db} (h : Sound db)
include h

theorem Sound.not_retired {id : Nat} {w : WorkerRow} (hw : db.workers.get id = some w)
    (hrun : ¬ w.state.Stopped) : db.retirements.get id = none := by
  cases hr : db.retirements.get id with
  | none => rfl
  | some r =>
    obtain ⟨x, hx, -, -, hstop⟩ := h.retired id r hr
    rw [hw] at hx
    cases hx
    exact absurd hstop hrun

theorem Sound.one_active {c d : Nat} {p q : ConnectionRow} (hp : db.connections.get c = some p)
    (hq : db.connections.get d = some q) (hid : p.workerId = q.workerId) (hpa : p.state = .active)
    (hqa : q.state = .active) : c = d := by
  obtain ⟨x, hx, hxs, -⟩ := h.worker c p hp
  obtain ⟨y, hy, hys, -⟩ := h.worker d q hq
  rw [hid, hy] at hx
  cases hx
  exact h.alone c d p q hp hq (hxs.symm.trans hys) hpa hqa

theorem Sound.setWorker {id : Nat} {w w' : WorkerRow} (hw : db.workers.get id = some w)
    (hs : w'.supervisorId = w.supervisorId) (hb : w'.bootId = w.bootId)
    (hstop : w.state.Stopped → w'.state.Stopped)
    (hterm : w.state = .terminated → w'.state = .terminated)
    (hret : w'.state = .terminated → (db.retirements.get id).isSome) :
    Moves db (db.setWorker id w') := by
  have hget : ∀ v, (db.setWorker id w').workers.get v =
      if v = id then some w' else db.workers.get v := fun v => db.workers.get_set id v w'
  refine ⟨{ h with worker := ?_, retired := ?_, terminated := ?_ }, { Kept.refl db with worker := ?_ },
    fun _ _ _ hr _ => hr⟩
  · intro c p hp
    obtain ⟨x, hx, hxs, hxb⟩ := h.worker c p hp
    by_cases hv : p.workerId = id
    · rw [hv, hw] at hx
      cases hx
      exact ⟨w', by rw [hget, if_pos hv], hs.trans hxs, hb.trans hxb⟩
    · exact ⟨x, by rw [hget, if_neg hv]; exact hx, hxs, hxb⟩
  · intro v r hr
    obtain ⟨x, hx, hxs, hxb, hxstop⟩ := h.retired v r hr
    by_cases hv : v = id
    · rw [hv, hw] at hx
      cases hx
      exact ⟨w', by rw [hget, if_pos hv], hs.trans hxs, hb.trans hxb, hstop hxstop⟩
    · exact ⟨x, by rw [hget, if_neg hv]; exact hx, hxs, hxb, hxstop⟩
  · intro v x hx hxterm
    rw [hget] at hx
    by_cases hv : v = id
    · rw [if_pos hv] at hx
      cases hx
      rw [hv]
      exact hret hxterm
    · rw [if_neg hv] at hx
      exact h.terminated v x hx hxterm
  · intro v x hx
    by_cases hv : v = id
    · rw [hv, hw] at hx
      cases hx
      exact ⟨w', by rw [hget, if_pos hv], hs, hb, hstop, hterm⟩
    · exact ⟨x, by rw [hget, if_neg hv]; exact hx, rfl, rfl, fun hx => hx, fun hx => hx⟩

theorem Sound.setRetirement {id : Nat} {r r' : RetirementRow} (hr : db.retirements.get id = some r)
    (hs : r'.supervisorId = r.supervisorId) (hb : r'.bootId = r.bootId) :
    Sound (db.setRetirement id r') ∧ Kept db (db.setRetirement id r') := by
  have hget : ∀ v, (db.setRetirement id r').retirements.get v =
      if v = id then some r' else db.retirements.get v := fun v => db.retirements.get_set id v r'
  have hsome : ∀ v, (db.retirements.get v).isSome →
      ((db.setRetirement id r').retirements.get v).isSome := by
    intro v hv
    rw [hget]
    split
    · rfl
    · exact hv
  refine ⟨{ h with
    retired := ?_
    silent := ?_
    terminated := fun v w hw hterm => hsome v (h.terminated v w hw hterm)
    fenced := fun c p reason at' hp hst => hsome _ (h.fenced c p reason at' hp hst)
    fences := fun v hv => hsome v (h.fences v hv) },
    { Kept.refl db with retirement := hsome }⟩
  · intro v q hq
    rw [hget] at hq
    by_cases hv : v = id
    · rw [if_pos hv] at hq
      cases hq
      rw [hv]
      obtain ⟨w, hw, hws, hwb, hstop⟩ := h.retired id r hr
      exact ⟨w, hw, hws.trans hs.symm, hwb.trans hb.symm, hstop⟩
    · rw [if_neg hv] at hq
      exact h.retired v q hq
  · intro v q c p hq hp hid
    rw [hget] at hq
    by_cases hv : v = id
    · exact h.silent id r c p hr hp (hid.trans hv)
    · rw [if_neg hv] at hq
      exact h.silent v q c p hq hp hid

theorem Sound.openRetirement {id : Nat} {r r' : RetirementRow}
    (hr : db.retirements.get id = some r) (hs : r'.supervisorId = r.supervisorId)
    (hb : r'.bootId = r.bootId) (hopen : ∀ completedAt, r'.state ≠ .completed completedAt) :
    Moves db (db.setRetirement id r') := by
  obtain ⟨hsound, hkept⟩ := h.setRetirement hr hs hb
  refine ⟨hsound, hkept, fun v q at' hq hst => ?_⟩
  unfold Db.setRetirement at hq
  dsimp only at hq
  rw [Table.get_set] at hq
  split at hq
  · cases hq
    exact absurd hst (hopen at')
  · exact hq

theorem Sound.setConnection {c : Nat} {p p' : ConnectionRow} (hp : db.connections.get c = some p)
    (hactive : p.state = .active) (hw : p'.workerId = p.workerId)
    (hs : p'.supervisorId = p.supervisorId) (hb : p'.bootId = p.bootId)
    (hst : ∀ reason closedAt, p'.state ≠ .fenced reason closedAt) :
    Moves db (db.setConnection c p') := by
  have hget : ∀ d, (db.setConnection c p').connections.get d =
      if d = c then some p' else db.connections.get d := fun d => db.connections.get_set c d p'
  have hwas : ∀ d q, (db.setConnection c p').connections.get d = some q →
      ∃ q₀, db.connections.get d = some q₀ ∧ q.workerId = q₀.workerId ∧
        q.supervisorId = q₀.supervisorId ∧ q.bootId = q₀.bootId ∧
        (q.state = .active → q₀.state = .active) ∧
        (∀ reason closedAt, q.state = .fenced reason closedAt → q = q₀) := by
    intro d q hq
    rw [hget] at hq
    split at hq
    · rename_i hd
      cases hq
      exact ⟨p, hd ▸ hp, hw, hs, hb, fun _ => hactive, fun reason at' hf => absurd hf (hst reason at')⟩
    · exact ⟨q, hq, rfl, rfl, rfl, fun hq => hq, fun _ _ _ => rfl⟩
  refine ⟨{ h with worker := ?_, alone := ?_, silent := ?_, fenced := ?_ },
    { Kept.refl db with connection := ?_, closed := ?_, opened := ?_ }, fun _ _ _ hr _ => hr⟩
  · intro d q hq
    obtain ⟨q₀, hq₀, hqw, hqs, hqb, -⟩ := hwas d q hq
    rw [hqw, hqs, hqb]
    exact h.worker d q₀ hq₀
  · intro d e q x hq hx hsame hqa hxa
    obtain ⟨q₀, hq₀, -, hqs, -, hqact, -⟩ := hwas d q hq
    obtain ⟨x₀, hx₀, -, hxs, -, hxact, -⟩ := hwas e x hx
    exact h.alone d e q₀ x₀ hq₀ hx₀ (hqs.symm.trans (hsame.trans hxs)) (hqact hqa) (hxact hxa)
  · intro v r d q hr hq hid hqa
    obtain ⟨q₀, hq₀, hqw, -, -, hqact, -⟩ := hwas d q hq
    exact h.silent v r d q₀ hr hq₀ (hqw.symm.trans hid) (hqact hqa)
  · intro d q reason at' hq hf
    obtain ⟨q₀, hq₀, -, -, -, -, heq⟩ := hwas d q hq
    cases heq reason at' hf
    exact h.fenced d q reason at' hq₀ hf
  · intro d q hq
    by_cases hd : d = c
    · rw [hd, hp] at hq
      cases hq
      exact ⟨p', by rw [hget, if_pos hd], hw, hs⟩
    · exact ⟨q, by rw [hget, if_neg hd]; exact hq, rfl, rfl⟩
  · intro d q hq hclosed
    rw [hget]
    split
    · rename_i hd
      rw [hd, hp] at hq
      cases hq
      exact absurd hactive hclosed
    · exact hq
  · intro v w d q _ _ hq hid hqa
    obtain ⟨q₀, hq₀, hqw, -, -, hqact, -⟩ := hwas d q hq
    exact ⟨q₀, hq₀, hqw.symm.trans hid, hqact hqa⟩

end Rows

/-! ## Fencing -/

def WorkerRow.fenced (w : WorkerRow) : WorkerRow :=
  { w with state := if w.state = .terminated then .terminated else .failed }

theorem WorkerRow.fenced_stopped (w : WorkerRow) : w.fenced.state.Stopped := by
  unfold fenced
  dsimp only
  split
  · exact .inr rfl
  · exact .inl rfl

/-- What `#fenceSandbox` leaves of a sound database. -/
structure Fenced (db db' : Db) (id : Nat) (w : WorkerRow) (reason : RetirementReason)
    (now : Time) : Prop where
  hosts : db'.hosts = db.hosts
  credentials : db'.credentials = db.credentials
  leases : db'.leases = db.leases
  fences : db'.fences = id :: db.fences
  connections : db'.connections = (db.closeConnections id reason now).connections
  workers : ∀ v, db'.workers.get v = if v = id then some w.fenced else db.workers.get v
  others : ∀ v, v ≠ id → db'.retirements.get v = db.retirements.get v
  retirement : ∃ r, db'.retirements.get id = some r ∧ r.supervisorId = w.supervisorId ∧
    r.bootId = w.bootId ∧ (db.retirements.get id = some r ∨ r.state = .pending)

theorem admitRetirement_spec (db : Db) (id : Nat) (w : WorkerRow) (reason : RetirementReason)
    (now : Time) : ∃ t : Table Nat RetirementRow,
      db.admitRetirement id w reason now = { db with retirements := t } ∧
      (∀ v, v ≠ id → t.get v = db.retirements.get v) ∧
      ∃ r, t.get id = some r ∧ (db.retirements.get id = some r ∨
        r.supervisorId = w.supervisorId ∧ r.bootId = w.bootId ∧ r.state = .pending) := by
  unfold Db.admitRetirement
  cases hr : db.retirements.get id with
  | some r => exact ⟨db.retirements, rfl, fun _ _ => rfl, r, hr, .inl rfl⟩
  | none =>
    refine ⟨_, rfl, fun v hv => ?_, _, Table.get_set_self .., .inr ⟨rfl, rfl, rfl⟩⟩
    rw [Table.get_set, if_neg hv]

theorem transitionWorker_failed {state : WorkerState} (h : ¬ state.Stopped) :
    transitionWorker state .failed = some .failed := by
  cases state with
  | provisioning | ready | draining => rfl
  | failed => exact absurd (.inl rfl) h
  | terminated => exact absurd (.inr rfl) h

theorem Sound.fenceSandbox_spec {db db' : Db} (h : Sound db) {id : Nat} {w : WorkerRow}
    (hw : db.workers.get id = some w) {reason : RetirementReason} {now : Time}
    (hf : db.fenceSandbox id w reason now = some db') : Fenced db db' id w reason now := by
  have hid : ∀ r, db.retirements.get id = some r → r.supervisorId = w.supervisorId ∧
      r.bootId = w.bootId := by
    intro r hr
    obtain ⟨x, hx, hxs, hxb, -⟩ := h.retired id r hr
    rw [hw] at hx
    cases hx
    exact ⟨hxs.symm, hxb.symm⟩
  unfold Db.fenceSandbox at hf
  dsimp only at hf
  split at hf
  · -- a worker that is terminated has a retirement already
    rename_i hterm
    cases hf
    obtain ⟨r, hr⟩ := Option.isSome_iff_exists.mp (h.terminated id w hw hterm)
    refine ⟨rfl, rfl, rfl, rfl, rfl, fun v => ?_, fun _ _ => rfl, r, hr, (hid r hr).1, (hid r hr).2,
      .inl hr⟩
    have hsame : w.fenced = w := by
      unfold WorkerRow.fenced
      rw [if_pos hterm, ← hterm]
    rw [hsame]
    split
    · rename_i hv
      rw [hv]
      exact hw
    · rfl
  · rename_i hterm
    have hadmit : ∀ closed : Db, closed.retirements = db.retirements →
        ∃ t : Table Nat RetirementRow,
          closed.admitRetirement id w reason now = { closed with retirements := t } ∧
          (∀ v, v ≠ id → t.get v = db.retirements.get v) ∧
          ∃ r, t.get id = some r ∧ r.supervisorId = w.supervisorId ∧ r.bootId = w.bootId ∧
            (db.retirements.get id = some r ∨ r.state = .pending) := by
      intro closed hsame
      obtain ⟨t, ht, hother, r, hr, hwas⟩ := admitRetirement_spec closed id w reason now
      rw [hsame] at hother hwas
      refine ⟨t, ht, hother, r, hr, ?_⟩
      rcases hwas with hwas | ⟨hs, hb, hp⟩
      · exact ⟨(hid r hwas).1, (hid r hwas).2, .inl hwas⟩
      · exact ⟨hs, hb, .inr hp⟩
    split at hf
    · rename_i hfailed
      obtain ⟨t, ht, hother, hr⟩ := hadmit
        { db.closeConnections id reason now with fences := id :: db.fences } rfl
      rw [ht] at hf
      cases hf
      refine ⟨rfl, rfl, rfl, rfl, rfl, fun v => ?_, hother, hr⟩
      have hsame : w.fenced = w := by
        unfold WorkerRow.fenced
        rw [if_neg hterm, ← hfailed]
      rw [hsame]
      split
      · rename_i hv
        rw [hv]
        exact hw
      · rfl
    · rename_i hfailed
      rw [transitionWorker_failed (fun hs => hs.elim hfailed hterm)] at hf
      obtain ⟨t, ht, hother, hr⟩ := hadmit
        (({ db.closeConnections id reason now with fences := id :: db.fences } : Db).setWorker id
          { w with state := .failed }) rfl
      rw [Option.bind_eq_bind, Option.bind_some, ht] at hf
      cases hf
      refine ⟨rfl, rfl, rfl, rfl, rfl, fun v => ?_, hother, hr⟩
      have hsame : w.fenced = { w with state := .failed } := by
        unfold WorkerRow.fenced
        rw [if_neg hterm]
      rw [hsame]
      exact db.workers.get_set id v _

theorem get_closeConnections {db : Db} {id : Nat} {reason : RetirementReason} {now : Time}
    {c : Nat} {p : ConnectionRow}
    (hp : (db.closeConnections id reason now).connections.get c = some p) :
    ∃ q, db.connections.get c = some q ∧
      ((q.workerId = id ∧ q.state = .active ∧ p = { q with state := .fenced reason now }) ∨
        (¬ (q.workerId = id ∧ q.state = .active) ∧ p = q)) := by
  unfold Db.closeConnections at hp
  rw [Table.get_mapRows] at hp
  obtain ⟨q, hq, hqp⟩ := Option.map_eq_some_iff.mp hp
  refine ⟨q, hq, ?_⟩
  split at hqp
  · rename_i hactive
    exact .inl ⟨hactive.1, hactive.2, hqp.symm⟩
  · rename_i hother
    exact .inr ⟨hother, hqp.symm⟩

theorem closeConnections_get {db : Db} {id : Nat} {reason : RetirementReason} {now : Time}
    {c : Nat} {q : ConnectionRow} (hq : db.connections.get c = some q) :
    (db.closeConnections id reason now).connections.get c =
      some (if q.workerId = id ∧ q.state = .active then { q with state := .fenced reason now }
        else q) := by
  unfold Db.closeConnections
  rw [Table.get_mapRows, hq, Option.map_some]

theorem Sound.fence {db db' : Db} (h : Sound db) {id : Nat} {w : WorkerRow}
    {reason : RetirementReason} {now : Time} (hw : db.workers.get id = some w)
    (hf : Fenced db db' id w reason now) : Moves db db' := by
  obtain ⟨r, hr, hrs, hrb, hwas'⟩ := hf.retirement
  have hwas : ∀ {c p}, db'.connections.get c = some p → ∃ q, db.connections.get c = some q ∧
      ((q.workerId = id ∧ q.state = .active ∧ p = { q with state := .fenced reason now }) ∨
        (¬ (q.workerId = id ∧ q.state = .active) ∧ p = q)) := by
    intro c p hp
    rw [hf.connections] at hp
    exact get_closeConnections hp
  have hactive : ∀ {c p}, db'.connections.get c = some p → p.state = .active →
      db.connections.get c = some p ∧ p.workerId ≠ id := by
    intro c p hp hact
    obtain ⟨q, hq, ⟨-, -, rfl⟩ | ⟨hnot, rfl⟩⟩ := hwas hp
    · cases hact
    · exact ⟨hq, fun hid => hnot ⟨hid, hact⟩⟩
  have hsome : ∀ v, (db.retirements.get v).isSome → (db'.retirements.get v).isSome := by
    intro v hv
    by_cases hvid : v = id
    · rw [hvid, hr]
      rfl
    · rw [hf.others v hvid]
      exact hv
  have hworker : ∀ v x, db.workers.get v = some x → ∃ x', db'.workers.get v = some x' ∧
      x'.supervisorId = x.supervisorId ∧ x'.bootId = x.bootId ∧
      (x.state.Stopped → x'.state.Stopped) ∧ (x.state = .terminated → x'.state = .terminated) := by
    intro v x hx
    by_cases hvid : v = id
    · rw [hvid, hw] at hx
      cases hx
      exact ⟨w.fenced, by rw [hf.workers, if_pos hvid], rfl, rfl, fun _ => w.fenced_stopped,
        fun hterm => if_pos hterm⟩
    · exact ⟨x, by rw [hf.workers, if_neg hvid]; exact hx, rfl, rfl, fun hx => hx, fun hx => hx⟩
  refine ⟨?_, ?_, ?_⟩
  · constructor
    · rw [hf.credentials]
      exact h.credential
    · intro c p hp
      obtain ⟨q, hq, hpq⟩ := hwas hp
      obtain ⟨x, hx, hxs, hxb⟩ := h.worker c q hq
      obtain ⟨x', hx', hxs', hxb', -⟩ := hworker _ x hx
      rcases hpq with ⟨-, -, rfl⟩ | ⟨-, rfl⟩
      · exact ⟨x', hx', hxs'.trans hxs, hxb'.trans hxb⟩
      · exact ⟨x', hx', hxs'.trans hxs, hxb'.trans hxb⟩
    · intro c d p q hp hq hsame hpa hqa
      exact h.alone c d p q (hactive hp hpa).1 (hactive hq hqa).1 hsame hpa hqa
    · intro v q hq
      by_cases hvid : v = id
      · rw [hvid, hr] at hq
        cases hq
        exact ⟨w.fenced, by rw [hf.workers, if_pos hvid], hrs.symm, hrb.symm, w.fenced_stopped⟩
      · rw [hf.others v hvid] at hq
        obtain ⟨x, hx, hxs, hxb, hstop⟩ := h.retired v q hq
        exact ⟨x, by rw [hf.workers, if_neg hvid]; exact hx, hxs, hxb, hstop⟩
    · intro v q c p hq hp hid hpa
      obtain ⟨hp₀, hne⟩ := hactive hp hpa
      rw [hf.others v (fun hv => hne (hid.trans hv))] at hq
      exact h.silent v q c p hq hp₀ hid hpa
    · intro v x hx hterm
      by_cases hvid : v = id
      · rw [hvid, hr]
        rfl
      · rw [hf.workers, if_neg hvid] at hx
        exact hsome v (h.terminated v x hx hterm)
    · intro c p reason' at' hp hst
      obtain ⟨q, hq, ⟨hid, -, rfl⟩ | ⟨-, rfl⟩⟩ := hwas hp
      · show (db'.retirements.get q.workerId).isSome
        rw [hid, hr]
        rfl
      · exact hsome _ (h.fenced c p reason' at' hq hst)
    · intro v hv
      rw [hf.fences] at hv
      rcases List.mem_cons.mp hv with rfl | hv
      · rw [hr]
        rfl
      · exact hsome v (h.fences v hv)
  · constructor
    · exact hworker
    · intro c q hq
      rw [hf.connections]
      refine ⟨_, closeConnections_get hq, ?_⟩
      split
      · exact ⟨rfl, rfl⟩
      · exact ⟨rfl, rfl⟩
    · intro c q hq hclosed
      rw [hf.connections, closeConnections_get hq, if_neg fun hact => hclosed hact.2]
    · intro v x c p _ _ hp hid hpa
      exact ⟨p, (hactive hp hpa).1, hid, hpa⟩
    · exact hsome
  · intro v q at' hq hst
    by_cases hvid : v = id
    · rw [hvid, hr] at hq
      cases hq
      rw [hvid]
      rcases hwas' with hwas' | hpend
      · exact hwas'
      · rw [hpend] at hst
        cases hst
    · rw [hf.others v hvid] at hq
      exact hq

/-! ## Provisioning -/

theorem Sound.setHost {db : Db} (h : Sound db) (id : Nat) (host : HostRow) :
    Moves db (setHost db id host) := ⟨{ h with }, { Kept.refl db with }, fun _ _ _ hr _ => hr⟩

theorem Sound.addWorker {db : Db} (h : Sound db) {id : Nat} {w : WorkerRow}
    (hnew : db.workers.get id = none) (hrun : ¬ w.state.Stopped) : Moves db (db.setWorker id w) := by
  have hget : ∀ v x, db.workers.get v = some x → (db.setWorker id w).workers.get v = some x := by
    intro v x hx
    have hv : v ≠ id := by
      rintro rfl
      rw [hnew] at hx
      cases hx
    exact (db.workers.get_set id v w).trans (by rw [if_neg hv, hx])
  refine ⟨{ h with worker := ?_, retired := ?_, terminated := ?_ }, { Kept.refl db with worker := ?_ },
    fun _ _ _ hr _ => hr⟩
  · intro c p hp
    obtain ⟨x, hx, hxs⟩ := h.worker c p hp
    exact ⟨x, hget _ x hx, hxs⟩
  · intro v r hr
    obtain ⟨x, hx, hxs⟩ := h.retired v r hr
    exact ⟨x, hget v x hx, hxs⟩
  · intro v x hx hterm
    rw [show (db.setWorker id w).workers.get v = if v = id then some w else db.workers.get v from
      db.workers.get_set id v w] at hx
    split at hx
    · cases hx
      exact absurd (.inr hterm) hrun
    · exact h.terminated v x hx hterm
  · intro v x hx
    exact ⟨x, hget v x hx, rfl, rfl, fun hx => hx, fun hx => hx⟩

theorem Sound.addCredential {db : Db} (h : Sound db) (q : ProvisionRequest)
    (now expiresAt : Time) :
    Moves db (insertCredential (revokeCredentials db q.supervisorId now) q now expiresAt) := by
  refine ⟨{ h with credential := ?_ }, { Kept.refl db with }, fun _ _ _ hr _ => hr⟩
  have hwas : ∀ c p, (insertCredential (revokeCredentials db q.supervisorId now) q now
      expiresAt).credentials.get c = some p → p.revokedAt = none →
      (c = q.credentialId ∧ p.supervisorId = q.supervisorId) ∨
        (c ≠ q.credentialId ∧ p.supervisorId ≠ q.supervisorId ∧
          db.credentials.get c = some p) := by
    intro c p hp hvalid
    unfold insertCredential revokeCredentials at hp
    rw [Table.get_set] at hp
    split at hp
    · rename_i hc
      cases hp
      exact .inl ⟨hc, rfl⟩
    · rename_i hc
      rw [Table.get_mapRows] at hp
      obtain ⟨p₀, hp₀, hpp⟩ := Option.map_eq_some_iff.mp hp
      split at hpp
      · cases hpp
        cases hvalid
      · rename_i hother
        cases hpp
        exact .inr ⟨hc, fun hs => hother ⟨hs, hvalid⟩, hp₀⟩
  intro c d p x hp hx hsame hpv hxv
  rcases hwas c p hp hpv with ⟨rfl, hps⟩ | ⟨-, hps, hp₀⟩
  · rcases hwas d x hx hxv with ⟨rfl, -⟩ | ⟨-, hxs, -⟩
    · rfl
    · exact absurd (hsame.symm.trans hps) hxs
  · rcases hwas d x hx hxv with ⟨-, hxs⟩ | ⟨-, -, hx₀⟩
    · exact absurd (hsame.trans hxs) hps
    · exact h.credential c d p x hp₀ hx₀ hsame hpv hxv

theorem Sound.provisioned {db db' : Db} (h : Sound db) {cfg : BootConfig} {q : ProvisionRequest}
    {now : Time} {answer : Provisioned} (hp : provision cfg db q now = some (answer, db')) :
    Moves db db' := by
  unfold provision at hp
  obtain ⟨-, hp⟩ := guard_some hp
  obtain ⟨-, hp⟩ := guard_some hp
  have hhost := h.setHost q.supervisorId
    { (db.hosts.get q.supervisorId).getD ⟨cfg.maximumCapacity, q.managementBaseUrl⟩ with
      maximumCapacity := cfg.maximumCapacity }
  dsimp only at hp
  split at hp
  · obtain ⟨-, hp⟩ := guard_some hp
    obtain ⟨-, hp⟩ := guard_some hp
    cases hp
    exact hhost
  · obtain ⟨hnew, hp⟩ := guard_some hp
    obtain ⟨-, hp⟩ := guard_some hp
    obtain ⟨-, hp⟩ := guard_some hp
    cases hp
    have hworker := hhost.sound.addWorker (w := q.worker) hnew (fun hs => by
      rcases hs with hs | hs <;> cases hs)
    exact (hhost.trans hworker).trans (hworker.sound.addCredential q now _)

/-! ## Registration -/

/-- `#expireLockedConnection` of an active connection of the worker. -/
theorem Sound.expireLocked {db db' : Db} (h : Sound db) {timeout id c : Nat} {w : WorkerRow}
    {p : ConnectionRow} {r : Readings} {retained : Bool} (hw : db.workers.get id = some w)
    (hp : db.connections.get c = some p) (hactive : p.state = .active)
    (he : db.expireLockedConnection timeout id w c r = some (retained, db')) :
    Moves db db' ∧
      ((retained = true ∧ db' = db.setConnection c { p with state := .expired r.now } ∧
          db.canRetainBoot timeout id w r = true) ∨
        (retained = false ∧ Fenced db db' id w .heartbeatTimeout r.now)) := by
  unfold Db.expireLockedConnection at he
  split at he
  · rename_i hretain
    rw [hp] at he
    dsimp only at he
    rw [if_pos hactive] at he
    cases he
    exact ⟨h.setConnection hp hactive rfl rfl rfl nofun, .inl ⟨rfl, rfl, hretain⟩⟩
  · obtain ⟨fenced, hf, he⟩ := bind_some he
    cases he
    have hspec := h.fenceSandbox_spec hw hf
    exact ⟨h.fence hw hspec, .inr ⟨rfl, hspec⟩⟩

/-- What fencing other workers leaves of a worker, and of the connections that are active. -/
structure Aside (id : Nat) (db db' : Db) : Prop where
  worker : db'.workers.get id = db.workers.get id
  connection : ∀ c p, db.connections.get c = some p → p.workerId = id →
    db'.connections.get c = some p
  active : ∀ c p, db'.connections.get c = some p → p.state = .active →
    db.connections.get c = some p

theorem Aside.refl (id : Nat) (db : Db) : Aside id db db :=
  ⟨rfl, fun _ _ hp _ => hp, fun _ _ hp _ => hp⟩

theorem Aside.trans {id : Nat} {db db' db'' : Db} (h : Aside id db db') (h' : Aside id db' db'') :
    Aside id db db'' where
  worker := h'.worker.trans h.worker
  connection c p hp hid := h'.connection c p (h.connection c p hp hid) hid
  active c p hp hact := h.active c p (h'.active c p hp hact) hact

theorem Fenced.aside {db db' : Db} {v : Nat} {w : WorkerRow} {reason : RetirementReason}
    {now : Time} (hf : Fenced db db' v w reason now) {id : Nat} (hid : v ≠ id) :
    Aside id db db' where
  worker := by rw [hf.workers, if_neg (Ne.symm hid)]
  connection c p hp hpid := by
    rw [hf.connections, closeConnections_get hp, if_neg fun hact => hid (hact.1.symm.trans hpid)]
  active c p hp hact := by
    rw [hf.connections] at hp
    obtain ⟨q, hq, ⟨-, -, rfl⟩ | ⟨-, rfl⟩⟩ := get_closeConnections hp
    · cases hact
    · exact hq

theorem fenceOthers_moves {current : Nat} {now : Time} {workers : List (Nat × WorkerRow)}
    {db db' : Db} (h : Sound db) (hnodup : (workers.map Prod.fst).Nodup)
    (hrows : ∀ e ∈ workers, db.workers.get e.1 = some e.2)
    (hf : fenceOthers current now workers db = some db') :
    Moves db db' ∧ Aside current db db' ∧
      (∀ e ∈ workers, e.1 ≠ current → ∃ w, db'.workers.get e.1 = some w ∧ w.state.Stopped ∧
        (db'.retirements.get e.1).isSome) ∧
      ∀ v, v ∉ workers.map Prod.fst → db'.workers.get v = db.workers.get v := by
  induction workers generalizing db with
  | nil =>
    cases hf
    exact ⟨h.moves, .refl _ _, nofun, fun _ _ => rfl⟩
  | cons e workers ih =>
    obtain ⟨id, w⟩ := e
    rw [List.map_cons, List.nodup_cons] at hnodup
    have hw := hrows (id, w) List.mem_cons_self
    have hrest : ∀ e ∈ workers, db.workers.get e.1 = some e.2 :=
      fun e he => hrows e (List.mem_cons_of_mem _ he)
    unfold fenceOthers at hf
    split at hf
    · rename_i hskip
      obtain ⟨hmoves, haside, hstop, hsame⟩ := ih h hnodup.2 hrest hf
      refine ⟨hmoves, haside, ?_, fun v hv => hsame v fun hmem => hv (List.mem_cons_of_mem _ hmem)⟩
      intro e he hne
      rcases List.mem_cons.mp he with rfl | he
      · have hterm := hskip.resolve_left hne
        obtain ⟨w', hw', -, -, hws, -⟩ := hmoves.kept.worker id w hw
        exact ⟨w', hw', hws (.inr hterm), hmoves.kept.retirement id (h.terminated id w hw hterm)⟩
      · exact hstop e he hne
    · rename_i hfence
      obtain ⟨fenced, hfd, hf⟩ := bind_some hf
      have hspec := h.fenceSandbox_spec hw hfd
      have hmove := h.fence hw hspec
      have hother : ∀ e ∈ workers, fenced.workers.get e.1 = some e.2 := by
        intro e he
        have hne : e.1 ≠ id := by
          rintro rfl
          exact hnodup.1 (List.mem_map.mpr ⟨e, he, rfl⟩)
        rw [hspec.workers, if_neg hne]
        exact hrest e he
      obtain ⟨hmoves, haside, hstop, hsame⟩ := ih hmove.sound hnodup.2 hother hf
      refine ⟨hmove.trans hmoves, (hspec.aside fun hid => hfence (.inl hid)).trans haside, ?_, ?_⟩
      · intro e he hne
        rcases List.mem_cons.mp he with rfl | he
        · obtain ⟨r, hr, -⟩ := hspec.retirement
          refine ⟨w.fenced, ?_, w.fenced_stopped, hmoves.kept.retirement id (by rw [hr]; rfl)⟩
          rw [hsame id hnodup.1, hspec.workers, if_pos rfl]
        · exact hstop e he hne
      · intro v hv
        rw [hsame v fun hmem => hv (List.mem_cons_of_mem _ hmem), hspec.workers,
          if_neg fun hvid => hv (by rw [hvid]; exact List.mem_cons_self)]

theorem Sound.addConnection {db : Db} (h : Sound db) {c : Nat} {p : ConnectionRow} {w : WorkerRow}
    (hnew : db.connections.get c = none) (hw : db.workers.get p.workerId = some w)
    (hs : w.supervisorId = p.supervisorId) (hb : w.bootId = p.bootId) (hrun : ¬ w.state.Stopped)
    (hactive : p.state = .active) (halone : ∀ d q, db.connections.get d = some q →
      q.supervisorId = p.supervisorId → q.state ≠ .active) : Moves db (db.setConnection c p) := by
  have hget : ∀ d, (db.setConnection c p).connections.get d =
      if d = c then some p else db.connections.get d := fun d => db.connections.get_set c d p
  have hkept : ∀ d q, db.connections.get d = some q →
      (db.setConnection c p).connections.get d = some q := by
    intro d q hq
    have hd : d ≠ c := by
      rintro rfl
      rw [hnew] at hq
      cases hq
    rw [hget, if_neg hd, hq]
  refine ⟨{ h with worker := ?_, alone := ?_, silent := ?_, fenced := ?_ },
    { Kept.refl db with
      connection := fun d q hq => ⟨q, hkept d q hq, rfl, rfl⟩
      closed := fun d q hq _ => hkept d q hq
      opened := ?_ }, fun _ _ _ hr _ => hr⟩
  · intro d q hq
    rw [hget] at hq
    split at hq
    · cases hq
      exact ⟨w, hw, hs, hb⟩
    · exact h.worker d q hq
  · intro d e q x hq hx hsame hqa hxa
    rw [hget] at hq hx
    split at hq
    · rename_i hd
      split at hx
      · rename_i he
        exact hd.trans he.symm
      · cases hq
        exact absurd hxa (halone e x hx hsame.symm)
    · split at hx
      · cases hx
        exact absurd hqa (halone d q hq hsame)
      · exact h.alone d e q x hq hx hsame hqa hxa
  · intro id r d q hr hq hid
    rw [hget] at hq
    split at hq
    · cases hq
      rw [hid] at hw
      have := h.not_retired hw hrun
      rw [show (db.setConnection c p).retirements = db.retirements from rfl, this] at hr
      cases hr
    · exact h.silent id r d q hr hq hid
  · intro d q reason at' hq hf
    rw [hget] at hq
    split at hq
    · cases hq
      rw [hactive] at hf
      cases hf
    · exact h.fenced d q reason at' hq hf
  · intro id x d q hx hstop hq hid hqa
    rw [hget] at hq
    split at hq
    · cases hq
      rw [hid, hx] at hw
      cases hw
      exact absurd hstop hrun
    · exact ⟨q, hq, hid, hqa⟩

theorem mem_workersOf {db : Db} {supervisorId : Nat} {e : Nat × WorkerRow} :
    e ∈ db.workersOf supervisorId ↔
      db.workers.get e.1 = some e.2 ∧ e.2.supervisorId = supervisorId := by
  unfold Db.workersOf
  rw [List.mem_filter, decide_eq_true_iff, ← Table.mem_entries]

theorem nodup_workersOf (db : Db) (supervisorId : Nat) :
    ((db.workersOf supervisorId).map Prod.fst).Nodup :=
  db.workers.nodup_entries.sublist (List.filter_sublist.map _)

theorem activeOf_some {db : Db} {id c : Nat} {p : ConnectionRow}
    (h : db.activeOf id = some (c, p)) :
    db.connections.get c = some p ∧ p.workerId = id ∧ p.state = .active := by
  have hmem := List.mem_of_find?_eq_some h
  unfold Db.history at hmem
  rw [List.mem_filter, Table.mem_entries] at hmem
  have hfound := List.find?_some (p := fun e : Nat × ConnectionRow => e.2.state = .active) h
  exact ⟨hmem.1, of_decide_eq_true hmem.2, of_decide_eq_true hfound⟩

theorem activeOf_none {db : Db} {id c : Nat} {p : ConnectionRow} (h : db.activeOf id = none)
    (hp : db.connections.get c = some p) (hid : p.workerId = id) : p.state ≠ .active := by
  intro hactive
  refine List.find?_eq_none.mp h (c, p) ?_ (decide_eq_true hactive)
  unfold Db.history
  rw [List.mem_filter, Table.mem_entries]
  exact ⟨hp, decide_eq_true hid⟩

def OthersFenced (db db' : Db) (a : Authority) : Prop :=
  ∀ id w, db.workers.get id = some w → w.supervisorId = a.supervisorId → id ≠ a.sandboxId →
    ∃ w', db'.workers.get id = some w' ∧ w'.state.Stopped ∧ (db'.retirements.get id).isSome

section Connect
variable {cfg : ManagerConfig} {instanceId : Nat} {db db' : Db} {m : RegisterMessage}
  {a : Authority} {r : Readings} {ids : Drawn} {current : WorkerRow} {out : Registration}

/-- The connection that `supersede` closes is the one active connection of the worker. -/
def CurrentActive (db : Db) (id : Nat) (active : Option (Nat × ConnectionRow)) : Prop :=
  (∀ e, active = some e → db.connections.get e.1 = some e.2 ∧ e.2.state = .active) ∧
    ∀ c p, db.connections.get c = some p → p.workerId = id → p.state = .active →
      ∃ e, active = some e ∧ e.1 = c

theorem Sound.connected (h : Sound db) (hw : db.workers.get a.sandboxId = some current)
    (hs : current.supervisorId = a.supervisorId) (hb : current.bootId = a.bootId)
    (hstate : current.state = .provisioning ∨ current.state = .ready)
    {active : Option (Nat × ConnectionRow)} (hcur : CurrentActive db a.sandboxId active)
    (hc : connect cfg instanceId db m a r ids current active = some (out, db')) :
    Moves db db' ∧ OthersFenced db db' a ∧ ∃ p, out = .accepted ids.connectionId p ∧
      p.state = .active ∧ db'.connections.get ids.connectionId = some p := by
  have hrun : ¬ current.state.Stopped := by
    rintro (hst | hst) <;> rw [hst] at hstate <;> rcases hstate with h' | h' <;> cases h'
  unfold connect at hc
  obtain ⟨-, hc⟩ := guard_some hc
  obtain ⟨fenced, hfence, hc⟩ := bind_some hc
  obtain ⟨alone, halone, hc⟩ := bind_some hc
  obtain ⟨opened, hopen, hc⟩ := bind_some hc
  obtain ⟨connected, hinsert, hc⟩ := bind_some hc
  cases hc
  obtain ⟨hm₁, haside, hstop, -⟩ := fenceOthers_moves h (nodup_workersOf db _)
    (fun e he => (mem_workersOf.mp he).1) hfence
  -- the current connection gives way
  have h₂ : Moves fenced alone ∧ alone.workers = fenced.workers ∧
      ∀ c p, alone.connections.get c = some p → p.state = .active →
        fenced.connections.get c = some p ∧ ∀ e, active = some e → e.1 ≠ c := by
    unfold supersede at halone
    split at halone
    · cases halone
      exact ⟨hm₁.sound.moves, rfl, fun c p hp _ => ⟨hp, nofun⟩⟩
    · rename_i id p₀
      split at halone
      · rename_i q hq
        obtain ⟨hqa, rfl⟩ := ite_some halone
        refine ⟨hm₁.sound.setConnection hq hqa rfl rfl rfl nofun, rfl, ?_⟩
        intro c p hp hpa
        unfold Db.setConnection at hp
        dsimp only at hp
        rw [Table.get_set] at hp
        split at hp
        · cases hp
          cases hpa
        · rename_i hne
          refine ⟨hp, ?_⟩
          rintro e he rfl
          cases he
          exact hne rfl
      · cases halone
  obtain ⟨hm₂, hworkers, hactive₂⟩ := h₂
  have hw₂ : alone.workers.get a.sandboxId = some current := by
    rw [hworkers, haside.worker, hw]
  -- a first registration makes the worker ready
  have h₃ : Moves alone opened ∧ opened.connections = alone.connections ∧
      ∃ w, opened.workers.get a.sandboxId = some w ∧ w.supervisorId = a.supervisorId ∧
        w.bootId = a.bootId ∧ ¬ w.state.Stopped := by
    unfold makeReady at hopen
    split at hopen
    · obtain ⟨state, hst, hopen⟩ := bind_some hopen
      cases hopen
      have hready : state = .ready := by
        unfold transitionWorker at hst
        obtain ⟨-, rfl⟩ := ite_some hst
        rfl
      subst hready
      refine ⟨hm₂.sound.setWorker hw₂ rfl rfl (fun hst => absurd hst hrun)
        (fun hst => absurd (.inr hst) hrun) nofun, rfl, _, Table.get_set_self .., hs, hb, ?_⟩
      rintro (hst | hst) <;> cases hst
    · cases hopen
      exact ⟨hm₂.sound.moves, rfl, current, hw₂, hs, hb, hrun⟩
  obtain ⟨hm₃, hconn, w, hw₃, hws, hwb, hwrun⟩ := h₃
  unfold insertConnection at hinsert
  obtain ⟨hnew, hinsert⟩ := guard_some hinsert
  obtain ⟨-, hinsert⟩ := guard_some hinsert
  cases hinsert
  have hnone : ∀ d q, opened.connections.get d = some q → q.supervisorId = a.supervisorId →
      q.state ≠ .active := by
    intro d q hq hqs hqa
    rw [hconn] at hq
    obtain ⟨hq₁, hne⟩ := hactive₂ d q hq hqa
    have hq₀ := haside.active d q hq₁ hqa
    by_cases hid : q.workerId = a.sandboxId
    · obtain ⟨e, he, hed⟩ := hcur.2 d q hq₀ hid hqa
      exact hne e he hed
    · obtain ⟨x, hx, hxs, -⟩ := h.worker d q hq₀
      obtain ⟨-, -, -, hret⟩ := hstop (q.workerId, x)
        (mem_workersOf.mpr ⟨hx, hxs.trans hqs⟩) hid
      obtain ⟨ret, hret⟩ := Option.isSome_iff_exists.mp hret
      exact hm₁.sound.silent _ ret d q hret hq₁ rfl hqa
  have hm₄ := hm₃.sound.addConnection (p := newConnection cfg instanceId m a
    ids.registeredMessageId r.write) hnew hw₃ hws hwb hwrun rfl hnone
  refine ⟨((hm₁.trans hm₂).trans hm₃).trans hm₄, ?_, _, rfl, rfl, Table.get_set_self ..⟩
  intro id x hx hxs hid
  obtain ⟨y, hy, hystop, hyret⟩ := hstop (id, x) (mem_workersOf.mpr ⟨hx, hxs⟩) hid
  have hkept := (hm₂.trans hm₃).trans hm₄
  obtain ⟨z, hz, -, -, hzstop, -⟩ := hkept.kept.worker id y hy
  exact ⟨z, hz, hzstop hystop, hkept.kept.retirement id hyret⟩

/-- A connection whose deadline has passed is fenced with its worker, and nothing else happens. -/
structure Lost (db db' : Db) (c : Nat) (p : ConnectionRow) (w : WorkerRow) (now : Time) : Prop where
  hosts : db'.hosts = db.hosts
  credentials : db'.credentials = db.credentials
  leases : db'.leases = db.leases
  connections : ∀ d, db'.connections.get d =
    if d = c then some { p with state := .fenced .heartbeatTimeout now } else db.connections.get d
  workers : ∀ v, db'.workers.get v =
    if v = p.workerId then some { w with state := .failed } else db.workers.get v
  others : ∀ v, v ≠ p.workerId → db'.retirements.get v = db.retirements.get v
  retirement : ∃ x, db'.retirements.get p.workerId = some x ∧ x.supervisorId = w.supervisorId ∧
    x.bootId = w.bootId ∧ x.state = .pending

/-- One active connection whose deadline has passed is expired, or fenced with its worker. -/
def Lapsed (db db' : Db) (now : Time) : Prop :=
  ∃ c p w, db.connections.get c = some p ∧ p.state = .active ∧ p.expiresAt ≤ now ∧
    db.workers.get p.workerId = some w ∧
    (db' = db.setConnection c { p with state := .expired now } ∨ Lost db db' c p w now)

theorem Sound.lapsed (h : Sound db) {timeout c : Nat} {p : ConnectionRow} {retained : Bool}
    (hw : db.workers.get p.workerId = some current) (hrun : ¬ current.state.Stopped)
    (hp : db.connections.get c = some p) (hactive : p.state = .active) (hlate : p.expiresAt ≤ r.now)
    (he : db.expireLockedConnection timeout p.workerId current c r = some (retained, db')) :
    Lapsed db db' r.now := by
  obtain ⟨-, ⟨-, hdb, -⟩ | ⟨-, hf⟩⟩ := h.expireLocked hw hp hactive he
  · exact ⟨c, p, current, hp, hactive, hlate, hw, .inl hdb⟩
  refine ⟨c, p, current, hp, hactive, hlate, hw, .inr ⟨hf.hosts, hf.credentials, hf.leases, ?_, ?_,
    hf.others, ?_⟩⟩
  · intro d
    rw [hf.connections]
    split
    · rename_i hd
      rw [hd, closeConnections_get hp, if_pos ⟨rfl, hactive⟩]
    · rename_i hd
      cases hq : db.connections.get d with
      | none =>
        unfold Db.closeConnections
        rw [Table.get_mapRows, hq, Option.map_none]
      | some q =>
        rw [closeConnections_get hq, if_neg]
        rintro ⟨hid, hqa⟩
        exact hd (h.one_active hq hp hid hqa hactive)
  · intro v
    have hfailed : current.fenced = { current with state := .failed } := by
      unfold WorkerRow.fenced
      rw [if_neg fun hterm => hrun (.inr hterm)]
    rw [hf.workers, hfailed]
  · obtain ⟨x, hx, hxs, hxb, hwas | hpend⟩ := hf.retirement
    · rw [h.not_retired hw hrun] at hwas
      cases hwas
    · exact ⟨x, hx, hxs, hxb, hpend⟩

/-- How a registration may end. -/
inductive Registered (db db' : Db) (a : Authority) (now : Time) : Registration → Prop where
  | replayed {c : Nat} {p : ConnectionRow} : db' = db → db.connections.get c = some p →
      p.state = .active → now < p.expiresAt → Registered db db' a now (.accepted c p)
  | connected {c : Nat} {p : ConnectionRow} : OthersFenced db db' a →
      db'.connections.get c = some p → p.state = .active →
      Registered db db' a now (.accepted c p)
  | unchanged {j : Rejection} : db' = db → Registered db db' a now (.rejected j)
  | lapsed {j : Rejection} : Lapsed db db' now → Registered db db' a now (.rejected j)

theorem Sound.registerReplay (h : Sound db) (hw : db.workers.get a.sandboxId = some current)
    (hrun : ¬ current.state.Stopped) {c : Nat} {p : ConnectionRow}
    (hp : db.connections.get c = some p)
    (hr : registerReplay cfg instanceId db m a r current c p = some (out, db')) :
    Moves db db' ∧ Registered db db' a r.now out := by
  unfold Supervisor.registerReplay at hr
  split at hr
  · cases hr
    exact ⟨h.moves, .unchanged rfl⟩
  rename_i hsame
  split at hr
  · rename_i hlive
    cases hr
    exact ⟨h.moves, .replayed rfl hp hlive.1 hlive.2⟩
  rename_i hlate
  split at hr
  · rename_i hactive
    have hid : p.workerId = a.sandboxId := by
      by_contra hne
      exact hsame (.inr (.inr (.inr (.inr (.inl hne)))))
    rw [← hid] at hw
    obtain ⟨⟨retained, expired⟩, he, hr⟩ := bind_some hr
    rw [← hid] at he
    cases hr
    exact ⟨(h.expireLocked hw hp hactive he).1,
      .lapsed (h.lapsed hw hrun hp hactive (Nat.not_lt.mp fun hlt => hlate ⟨hactive, hlt⟩) he)⟩
  · cases hr
    exact ⟨h.moves, .unchanged rfl⟩

theorem Sound.registerNew (h : Sound db) (hw : db.workers.get a.sandboxId = some current)
    (hs : current.supervisorId = a.supervisorId) (hb : current.bootId = a.bootId)
    (hstate : current.state = .provisioning ∨ current.state = .ready)
    (hrun : ¬ current.state.Stopped)
    (hr : registerNew cfg instanceId db m a r ids current = some (out, db')) :
    Moves db db' ∧ Registered db db' a r.now out := by
  unfold Supervisor.registerNew at hr
  split at hr
  · cases hr
    exact ⟨h.moves, .unchanged rfl⟩
  split at hr
  · rename_i hnone
    split at hr
    · cases hr
      exact ⟨h.moves, .unchanged rfl⟩
    · have hcur : CurrentActive db a.sandboxId none :=
        ⟨nofun, fun c p hp hid hact => absurd hact (activeOf_none hnone hp hid)⟩
      obtain ⟨hmoves, hothers, p, rfl, hact, hp⟩ := h.connected hw hs hb hstate hcur hr
      exact ⟨hmoves, .connected hothers hp hact⟩
  · rename_i c p hsome
    obtain ⟨hp, hid, hactive⟩ := activeOf_some hsome
    split at hr
    · rename_i hlate
      split at hr
      · cases hr
      · -- the boot outlives its connection
        rename_i expired he
        obtain ⟨hm, ⟨-, rfl, -⟩ | ⟨hfalse, -⟩⟩ := h.expireLocked hw hp hactive he
        · have hcur : CurrentActive (db.setConnection c { p with state := .expired r.now })
              a.sandboxId none := by
            refine ⟨nofun, fun d q hq hqid hqa => ?_⟩
            unfold Db.setConnection at hq
            dsimp only at hq
            rw [Table.get_set] at hq
            split at hq
            · cases hq
              cases hqa
            · rename_i hd
              exact absurd (h.one_active hq hp (hqid.trans hid.symm) hqa hactive) hd
          obtain ⟨hmoves, hothers, p', rfl, hact, hp'⟩ :=
            hm.sound.connected hw hs hb hstate hcur hr
          exact ⟨hm.trans hmoves, .connected hothers hp' hact⟩
        · cases hfalse
      · rename_i expired he
        cases hr
        rw [← hid] at hw he
        exact ⟨(h.expireLocked hw hp hactive he).1, .lapsed (h.lapsed hw hrun hp hactive hlate he)⟩
    · have hcur : CurrentActive db a.sandboxId (some (c, p)) := by
        refine ⟨?_, ?_⟩
        · rintro e he
          cases he
          exact ⟨hp, hactive⟩
        · intro d q hq hqid hqa
          exact ⟨_, rfl, h.one_active hp hq (hid.trans hqid.symm) hactive hqa⟩
      obtain ⟨hmoves, hothers, p', rfl, hact, hp'⟩ := h.connected hw hs hb hstate hcur hr
      exact ⟨hmoves, .connected hothers hp' hact⟩

theorem Sound.registered (h : Sound db)
    (hr : register cfg instanceId db m a r ids = some (out, db')) :
    Moves db db' ∧ Registered db db' a r.now out := by
  have hreject : ∀ {code message retryable}, reject db code message retryable = some (out, db') →
      Moves db db' ∧ Registered db db' a r.now out := by
    intro code message retryable hj
    cases hj
    exact ⟨h.moves, .unchanged rfl⟩
  unfold register at hr
  obtain ⟨-, hr⟩ := guard_some hr
  obtain ⟨-, hr⟩ := guard_some hr
  split at hr
  · exact hreject hr
  rename_i current hw
  split at hr
  · exact hreject hr
  rename_i hids
  have hs : current.supervisorId = a.supervisorId := by
    by_contra hne
    exact hids (.inl hne)
  have hb : current.bootId = a.bootId := by
    by_contra hne
    exact hids (.inr hne)
  split at hr
  · exact hreject hr
  split at hr
  · exact hreject hr
  split at hr
  · exact hreject hr
  rename_i hstate
  have hstate := not_not.mp hstate
  have hrun : ¬ current.state.Stopped := by
    rintro (hst | hst) <;> rw [hst] at hstate <;> rcases hstate with h' | h' <;> cases h'
  split at hr
  · exact hreject hr
  split at hr
  · rename_i c p hfound
    have hmem := List.mem_of_find?_eq_some hfound
    unfold Db.connectionsOf at hmem
    rw [List.mem_filter, Table.mem_entries] at hmem
    exact h.registerReplay hw hrun hmem.1 hr
  · split at hr
    · exact hreject hr
    · exact h.registerNew hw hs hb hstate hrun hr

theorem Sound.heartbeat (h : Sound db) {b : Heartbeat} {now write : Time}
    (hb : heartbeat cfg instanceId db b a now write = some db') : Moves db db' := by
  unfold Supervisor.heartbeat at hb
  obtain ⟨-, hb⟩ := guard_some hb
  obtain ⟨p, hp, hb⟩ := bind_some hb
  obtain ⟨⟨-, -, -, -, -, hactive, -⟩, hb⟩ := guard_some hb
  cases hb
  refine h.setConnection hp hactive rfl rfl rfl ?_
  intro reason closedAt hf
  rw [show p.state = .fenced reason closedAt from hf] at hactive
  cases hactive

theorem Sound.staleConnection (h : Sound db) {c : Nat} {retryable : Bool}
    (hs : staleConnection cfg instanceId db c a r = some (retryable, db')) : Moves db db' := by
  unfold Supervisor.staleConnection at hs
  obtain ⟨-, hs⟩ := guard_some hs
  split at hs
  · cases hs
    exact h.moves
  rename_i w hw
  split at hs
  · cases hs
    exact h.moves
  split at hs
  · cases hs
    exact h.moves
  rename_i p hp
  split at hs
  · cases hs
    exact h.moves
  split at hs
  · rename_i hlate
    exact (h.expireLocked hw hp hlate.1 hs).1
  · cases hs
    exact h.moves

theorem Sound.expireConnection (h : Sound db) {candidate : ConnectionCandidate} {expired : Bool}
    (he : expireConnection cfg db candidate r = some (expired, db')) : Moves db db' := by
  unfold Supervisor.expireConnection at he
  obtain ⟨-, he⟩ := guard_some he
  obtain ⟨w, hw, he⟩ := bind_some he
  split at he
  · cases he
    exact h.moves
  rename_i p hp
  split at he
  · cases he
    exact h.moves
  · rename_i hlate
    obtain ⟨⟨retained, db''⟩, hx, he⟩ := bind_some he
    cases he
    exact (h.expireLocked hw hp (by_contra fun hne => hlate (.inl hne)) hx).1

end Connect

/-! ## Retirements -/

section Retire
variable {cfg : ManagerConfig} {instanceId : Nat} {db db' : Db} {k : Claim} {now : Time}

theorem Sound.admitFailedWorker (h : Sound db) {candidate : WorkerCandidate} {admitted : Nat}
    (ha : admitFailedWorker db candidate now = some (admitted, db')) : Moves db db' := by
  unfold Supervisor.admitFailedWorker at ha
  obtain ⟨-, ha⟩ := guard_some ha
  split at ha
  · cases ha
    exact h.moves
  rename_i w hw
  split at ha
  · cases ha
    exact h.moves
  split at ha
  · cases ha
    exact h.moves
  · obtain ⟨fenced, hf, ha⟩ := bind_some ha
    cases ha
    exact h.fence hw (h.fenceSandbox_spec hw hf)

theorem Sound.claimRetirement (h : Sound db) {workerId claimId : Nat}
    (hc : claimRetirement cfg instanceId db workerId claimId now = some (k, db')) :
    Moves db db' ∧ k.sandboxId = workerId ∧ k.claimId = claimId ∧
      (db.retirements.get workerId).isSome := by
  unfold Supervisor.claimRetirement at hc
  obtain ⟨x, hx, hc⟩ := bind_some hc
  obtain ⟨-, hc⟩ := guard_some hc
  cases hc
  exact ⟨h.openRetirement hx rfl rfl nofun, rfl, rfl, by rw [hx]; rfl⟩

theorem claimedRow_some {x : RetirementRow} {claimUntil : Time}
    (hc : claimedRow instanceId db k = some (x, claimUntil)) :
    db.retirements.get k.sandboxId = some x ∧ x.state = .claimed k.claimId instanceId claimUntil := by
  unfold claimedRow at hc
  obtain ⟨y, hy, hc⟩ := bind_some hc
  split at hc
  · rename_i hst
    split at hc
    · rename_i hsame
      cases hc
      rw [hsame.1, hsame.2] at hst
      exact ⟨hy, hst⟩
    · cases hc
  · cases hc

theorem Sound.renewClaim (h : Sound db) (hr : renewClaim cfg instanceId db k now = some db') :
    Moves db db' := by
  unfold Supervisor.renewClaim at hr
  obtain ⟨⟨x, claimUntil⟩, hx, hr⟩ := bind_some hr
  obtain ⟨-, hr⟩ := guard_some hr
  cases hr
  exact h.openRetirement (claimedRow_some hx).1 rfl rfl nofun

theorem Sound.failClaim (h : Sound db) {errorCode : Nat} {retryable : Bool}
    (hf : failClaim cfg instanceId db k errorCode retryable now = some db') : Moves db db' := by
  unfold Supervisor.failClaim at hf
  obtain ⟨⟨x, claimUntil⟩, hx, hf⟩ := bind_some hf
  cases hf
  refine h.openRetirement (claimedRow_some hx).1 rfl rfl ?_
  intro completedAt hst
  dsimp only at hst
  split at hst
  · cases hst
  · cases hst

theorem Sound.completeClaim (h : Sound db) (hc : completeClaim instanceId db k now = some db') :
    (Sound db' ∧ Kept db db') ∧
      (∃ w, db.workers.get k.sandboxId = some w ∧ w.state = .terminated) ∧
      (∃ x claimUntil, db.retirements.get k.sandboxId = some x ∧
        x.state = .claimed k.claimId instanceId claimUntil) ∧
      ∀ v, v ≠ k.sandboxId → db'.retirements.get v = db.retirements.get v := by
  unfold Supervisor.completeClaim at hc
  obtain ⟨w, hw, hc⟩ := bind_some hc
  obtain ⟨⟨-, -, hterm⟩, hc⟩ := guard_some hc
  obtain ⟨⟨x, claimUntil⟩, hx, hc⟩ := bind_some hc
  cases hc
  obtain ⟨hget, hst⟩ := claimedRow_some hx
  refine ⟨h.setRetirement hget rfl rfl, ⟨w, hw, hterm⟩, ⟨x, claimUntil, hget, hst⟩, fun v hv => ?_⟩
  exact (db.retirements.get_set _ v _).trans (if_neg hv)

/-- A worker that runs is moved to a state that is not `terminated`. -/
theorem Sound.moveRunning (h : Sound db) {id : Nat} {w : WorkerRow} {target : WorkerState}
    (hw : db.workers.get id = some w) (hrun : ¬ w.state.Stopped) (htarget : target ≠ .terminated)
    (hm : moveWorker db id w target = some db') : Moves db db' := by
  unfold moveWorker at hm
  obtain ⟨state, hst, hm⟩ := bind_some hm
  cases hm
  unfold transitionWorker at hst
  obtain ⟨-, rfl⟩ := ite_some hst
  exact h.setWorker hw rfl rfl (fun hs => absurd hs hrun) (fun hs => absurd (.inr hs) hrun)
    (fun hs => absurd hs htarget)

theorem Sound.beginRetirement (h : Sound db) {id : Nat}
    (hb : beginRetirement db id = some db') : Moves db db' := by
  unfold Supervisor.beginRetirement at hb
  obtain ⟨w, hw, hb⟩ := bind_some hb
  cases hst : w.state with
  | terminated | draining | failed =>
    rw [hst] at hb
    cases hb
    exact h.moves
  | provisioning =>
    rw [hst] at hb
    refine h.moveRunning hw ?_ ?_ hb
    · rw [hst]
      rintro (hs | hs) <;> cases hs
    · intro hs
      cases hs
  | ready =>
    rw [hst] at hb
    refine h.moveRunning hw ?_ ?_ hb
    · rw [hst]
      rintro (hs | hs) <;> cases hs
    · intro hs
      cases hs

theorem Sound.finalizeRetirement (h : Sound db) {id : Nat}
    (hret : (db.retirements.get id).isSome) (hf : finalizeRetirement db id = some db') :
    Moves db db' := by
  unfold Supervisor.finalizeRetirement at hf
  obtain ⟨w, hw, hf⟩ := bind_some hf
  have hmove : ∀ {t}, moveWorker db id w .terminated = some t → Moves db t := by
    intro t hm
    unfold moveWorker at hm
    obtain ⟨state, hst, hm⟩ := bind_some hm
    cases hm
    unfold transitionWorker at hst
    obtain ⟨-, rfl⟩ := ite_some hst
    exact h.setWorker hw rfl rfl (fun _ => .inr rfl) (fun _ => rfl) (fun _ => hret)
  cases hst : w.state with
  | terminated =>
    rw [hst] at hf
    cases hf
    exact h.moves
  | draining | failed | provisioning =>
    rw [hst] at hf
    exact hmove hf
  | ready =>
    rw [hst] at hf
    cases hf

theorem Sound.quarantineWorker (h : Sound db) {id : Nat}
    (hq : quarantineWorker db id = some db') : Moves db db' := by
  unfold Supervisor.quarantineWorker at hq
  split at hq
  · cases hq
    exact h.moves
  rename_i w hw
  split at hq
  · cases hq
    exact h.moves
  · rename_i hrun
    refine h.moveRunning hw hrun ?_ hq
    intro hs
    cases hs

theorem caught_claim (retiresFenced : Bool) (k : Claim) (stopped : Bool) (f : Failure) :
    (caught retiresFenced k stopped f).claim = k := by
  unfold caught
  split
  · rfl
  · rfl

theorem failedAttempt_claim (retiresFenced : Bool) (k : Claim) (fenced : Bool) (f : Failure) :
    (failedAttempt retiresFenced k fenced f).claim = k := by
  unfold failedAttempt
  split
  · rfl
  · exact caught_claim ..

theorem Retiring.step_claim {retiresFenced : Bool} {answer : Option Failure} {pc : Retiring} :
    ∀ {next}, (pc.step cfg retiresFenced instanceId db answer now).1 = some next →
      next.claim = pc.claim := by
  intro next hn
  cases pc with
  | stopping k =>
    cases answer with
    | none =>
      cases hn
      rfl
    | some f =>
      cases hn
      exact caught_claim ..
  | confirming k =>
    cases answer with
    | none =>
      cases hn
      rfl
    | some f =>
      cases hn
      exact caught_claim ..
  | renewing k fenced =>
    unfold step at hn
    dsimp only at hn
    split at hn
    · cases hn
      exact failedAttempt_claim ..
    · cases hn
      exact failedAttempt_claim ..
    · cases hn
      rfl
  | beginning k fenced =>
    unfold step at hn
    dsimp only at hn
    split at hn <;> cases hn <;> rfl
  | finalizing k fenced =>
    unfold step at hn
    dsimp only at hn
    split at hn <;> cases hn <;> rfl
  | quarantining k fenced f =>
    unfold step at hn
    dsimp only at hn
    split at hn
    · cases hn
      exact failedAttempt_claim ..
    · cases hn
      exact failedAttempt_claim ..
  | completing k =>
    unfold step at hn
    dsimp only at hn
    split at hn <;> cases hn <;> rfl
  | failing k f =>
    unfold step at hn
    dsimp only at hn
    split at hn <;> cases hn

variable (cfg instanceId now) in
theorem Retiring.step_moves (retiresFenced : Bool) (answer : Option Failure) {pc : Retiring}
    (h : Sound db) (hret : (db.retirements.get pc.claim.sandboxId).isSome) :
    let db' := (pc.step cfg retiresFenced instanceId db answer now).2
    Moves db db' ∨ ∃ k, pc = .completing k ∧ answer = none ∧
      completeClaim instanceId db k now = some db' := by
  dsimp only
  cases pc with
  | stopping k | confirming k =>
    left
    cases answer <;> exact h.moves
  | renewing k fenced =>
    left
    unfold step
    dsimp only
    split
    · exact h.moves
    · exact h.moves
    · rename_i hr
      exact h.renewClaim hr
  | beginning k fenced =>
    left
    unfold step
    dsimp only
    split
    · exact h.moves
    · exact h.moves
    · rename_i hb
      exact h.beginRetirement hb
  | finalizing k fenced =>
    left
    unfold step
    dsimp only
    split
    · exact h.moves
    · exact h.moves
    · rename_i hf
      exact h.finalizeRetirement hret hf
  | quarantining k fenced f =>
    left
    unfold step
    dsimp only
    split
    · rename_i hq
      exact h.quarantineWorker hq
    · exact h.moves
  | completing k =>
    unfold step
    dsimp only
    split
    · exact .inl h.moves
    · exact .inl h.moves
    · rename_i hc
      exact .inr ⟨k, rfl, rfl, hc⟩
  | failing k f =>
    left
    unfold step
    dsimp only
    split
    · rename_i hf
      exact h.failClaim hf
    · exact h.moves

end Retire

/-! ## All control planes -/

structure Inv (s : State) : Prop where
  db : Sound s.db
  claimed : ∀ i n pc, s.retiring i n = some pc →
    (s.db.retirements.get pc.claim.sandboxId).isSome
  drawn : ∀ i n pc, s.retiring i n = some pc → pc.claim.claimId ∈ s.claimIds
  distinct : ∀ i n j m pc qc, s.retiring i n = some pc → s.retiring j m = some qc →
    pc.claim.claimId = qc.claim.claimId → i = j ∧ n = m

/-- The step is the last one of the retirement that holds the row's current claim. -/
def CompletedBy (s : State) (i n id : Nat) : Prop :=
  ∃ k, s.retiring i n = some (.completing k) ∧ k.sandboxId = id ∧
    (∃ r claimUntil, s.db.retirements.get id = some r ∧
      r.state = .claimed k.claimId i claimUntil) ∧
    (∃ w, s.db.workers.get id = some w ∧ w.state = .terminated) ∧
    ∀ j m pc, s.retiring j m = some pc → pc.claim.claimId = k.claimId → j = i ∧ m = n

/-- What one step does to the database. -/
structure Advances (s : State) (a : Action) (t : State) : Prop where
  inv : Inv t
  kept : Kept s.db t.db
  completed : ∀ id r completedAt, t.db.retirements.get id = some r →
    r.state = .completed completedAt → s.db.retirements.get id = some r ∨
      ∃ i n now, a = .retire i n none now ∧ CompletedBy s i n id

section Steps
variable {set : Settings} {s t : State}

theorem Inv.moves (h : Inv s) {a : Action} (hm : Moves s.db t.db) (hret : t.retiring = s.retiring)
    (hids : t.claimIds = s.claimIds) : Advances s a t where
  inv := {
    db := hm.sound
    claimed := by
      rw [hret]
      exact fun i n pc hpc => hm.kept.retirement _ (h.claimed i n pc hpc)
    drawn := by
      rw [hret, hids]
      exact h.drawn
    distinct := by
      rw [hret]
      exact h.distinct }
  kept := hm.kept
  completed id r at' hr hst := .inl (hm.completed id r at' hr hst)

theorem retiring_setRetiring (s : State) (i n j m : Nat) (pc : Option Retiring) :
    (s.setRetiring i n pc).retiring j m = if j = i ∧ m = n then pc else s.retiring j m := by
  unfold State.setRetiring
  dsimp only
  by_cases hj : j = i
  · subst hj
    rw [Function.update_self]
    by_cases hm : m = n
    · rw [hm, Function.update_self, if_pos ⟨rfl, rfl⟩]
    · rw [Function.update_of_ne hm, if_neg fun h => hm h.2]
  · rw [Function.update_of_ne hj, if_neg fun h => hj h.1]

theorem Inv.setRetiring (h : Inv s) {db : Db} (hsound : Sound db) (hkept : Kept s.db db)
    {i n : Nat} {pc : Retiring} (hpc : s.retiring i n = some pc) {next : Option Retiring}
    (hnext : ∀ qc, next = some qc → qc.claim = pc.claim) :
    Inv (State.setRetiring { s with db } i n next) := by
  have hwas : ∀ j m qc, (State.setRetiring { s with db } i n next).retiring j m = some qc →
      ∃ q, s.retiring j m = some q ∧ qc.claim = q.claim := by
    intro j m qc hqc
    rw [retiring_setRetiring] at hqc
    split at hqc
    · rename_i hjm
      rw [hjm.1, hjm.2]
      exact ⟨pc, hpc, hnext qc hqc⟩
    · exact ⟨qc, hqc, rfl⟩
  refine ⟨hsound, ?_, ?_, ?_⟩
  · intro j m qc hqc
    obtain ⟨q, hq, heq⟩ := hwas j m qc hqc
    rw [heq]
    exact hkept.retirement _ (h.claimed j m q hq)
  · intro j m qc hqc
    obtain ⟨q, hq, heq⟩ := hwas j m qc hqc
    rw [heq]
    exact h.drawn j m q hq
  · intro j m j' m' qc qc' hqc hqc' hsame
    obtain ⟨q, hq, heq⟩ := hwas j m qc hqc
    obtain ⟨q', hq', heq'⟩ := hwas j' m' qc' hqc'
    rw [heq, heq'] at hsame
    exact h.distinct j m j' m' q q' hq hq' hsame

theorem Inv.retire (h : Inv s) {i n : Nat} {answer : Option Failure} {now : Time}
    (hs : s.retire set i n answer now = some t) :
    Advances s (.retire i n answer now) t := by
  unfold State.retire at hs
  obtain ⟨pc, hpc, hs⟩ := bind_some hs
  cases hs
  have hret := h.claimed i n pc hpc
  have hclaim : ∀ qc, (pc.step (set.manager i) (set.retiresFenced i) i s.db answer now).1 =
      some qc → qc.claim = pc.claim := fun _ hqc => Retiring.step_claim hqc
  rcases Retiring.step_moves (set.manager i) i now (set.retiresFenced i) answer h.db hret with
    hm | ⟨k, rfl, rfl, hc⟩
  · exact ⟨h.setRetiring hm.sound hm.kept hpc hclaim, hm.kept,
      fun id r at' hr hst => .inl (hm.completed id r at' hr hst)⟩
  · obtain ⟨⟨hsound, hkept⟩, hw, ⟨x, claimUntil, hx, hxst⟩, hother⟩ := h.db.completeClaim hc
    refine ⟨h.setRetiring hsound hkept hpc hclaim, hkept, fun id r at' hr hst => ?_⟩
    by_cases hid : id = k.sandboxId
    · refine .inr ⟨i, n, now, rfl, k, hpc, hid.symm, ?_, ?_, ?_⟩
      · exact ⟨x, claimUntil, hid ▸ hx, hxst⟩
      · exact hid ▸ hw
      · intro j m qc hqc hsame
        exact h.distinct j m i n qc _ hqc hpc hsame
    · left
      rw [← hother id hid]
      exact hr

theorem Inv.claimRetirement (h : Inv s) {i n workerId claimId : Nat} {now : Time} {a : Action}
    (hs : s.claimRetirement set i n workerId claimId now = some t) : Advances s a t := by
  unfold State.claimRetirement at hs
  obtain ⟨⟨hidle, hfresh⟩, hs⟩ := guard_some hs
  obtain ⟨⟨k, claimed⟩, hc, hs⟩ := bind_some hs
  cases hs
  obtain ⟨hm, hw, hk, hret⟩ := h.db.claimRetirement hc
  have hwas : ∀ j m pc, (State.setRetiring { s with db := claimed, claimIds := claimId :: s.claimIds }
      i n (some (.stopping k))).retiring j m = some pc →
        (j = i ∧ m = n ∧ pc.claim = k) ∨ s.retiring j m = some pc := by
    intro j m pc hpc
    rw [retiring_setRetiring] at hpc
    split at hpc
    · rename_i hjm
      cases hpc
      exact .inl ⟨hjm.1, hjm.2, rfl⟩
    · exact .inr hpc
  have hne : ∀ j m pc, s.retiring j m = some pc → pc.claim.claimId ≠ claimId := by
    rintro j m pc hpc rfl
    exact hfresh (h.drawn j m pc hpc)
  refine ⟨⟨hm.sound, ?_, ?_, ?_⟩, hm.kept, fun id r at' hr hst => .inl (hm.completed id r at' hr hst)⟩
  · intro j m pc hpc
    rcases hwas j m pc hpc with ⟨-, -, hpk⟩ | hpc
    · rw [hpk, hw]
      exact hm.kept.retirement _ hret
    · exact hm.kept.retirement _ (h.claimed j m pc hpc)
  · intro j m pc hpc
    rcases hwas j m pc hpc with ⟨-, -, hpk⟩ | hpc
    · rw [hpk, hk]
      exact List.mem_cons_self
    · exact List.mem_cons_of_mem _ (h.drawn j m pc hpc)
  · intro j m j' m' pc pc' hpc hpc' hsame
    rcases hwas j m pc hpc with ⟨hj, hm, hpk⟩ | hpc
    · rcases hwas j' m' pc' hpc' with ⟨hj', hm', -⟩ | hpc'
      · exact ⟨hj.trans hj'.symm, hm.trans hm'.symm⟩
      · exact absurd (hsame.symm.trans (by rw [hpk, hk])) (hne j' m' pc' hpc')
    · rcases hwas j' m' pc' hpc' with ⟨-, -, hpk⟩ | hpc'
      · exact absurd (hsame.trans (by rw [hpk, hk])) (hne j m pc hpc)
      · exact h.distinct j m j' m' pc pc' hpc hpc' hsame

theorem Inv.restart (h : Inv s) (i : Nat) {a : Action} : Advances s a (s.restart i) := by
  have hwas : ∀ j m pc, (s.restart i).retiring j m = some pc → s.retiring j m = some pc := by
    intro j m pc hpc
    unfold State.restart at hpc
    dsimp only at hpc
    rw [Function.update_apply] at hpc
    split at hpc
    · cases hpc
    · exact hpc
  refine ⟨⟨h.db, ?_, ?_, ?_⟩, .refl _, fun _ _ _ hr _ => .inl hr⟩
  · exact fun j m pc hpc => h.claimed j m pc (hwas j m pc hpc)
  · exact fun j m pc hpc => h.drawn j m pc (hwas j m pc hpc)
  · exact fun j m j' m' pc pc' hpc hpc' =>
      h.distinct j m j' m' pc pc' (hwas j m pc hpc) (hwas j' m' pc' hpc')

theorem Inv.expireNext (h : Inv s) {i : Nat} {busy : Bool} {r : Readings} {a : Action}
    (hs : s.expireNext set i busy r = some t) : Advances s a t := by
  unfold State.expireNext at hs
  split at hs
  · cases hs
  dsimp only at hs
  split at hs
  · cases hs
    exact h.moves h.db.moves rfl rfl
  · split at hs
    · rename_i he
      cases hs
      exact h.moves (h.db.expireConnection he) rfl rfl
    · cases hs
      exact h.moves h.db.moves rfl rfl

theorem Inv.admitNext (h : Inv s) {i : Nat} {busy : Bool} {now : Time} {a : Action}
    (hs : s.admitNext i busy now = some t) : Advances s a t := by
  unfold State.admitNext at hs
  split at hs
  · cases hs
  dsimp only at hs
  split at hs
  · cases hs
    exact h.moves h.db.moves rfl rfl
  · split at hs
    · rename_i ha
      cases hs
      exact h.moves (h.db.admitFailedWorker ha) rfl rfl
    · cases hs
      exact h.moves h.db.moves rfl rfl

theorem Sound.setLease {db : Db} (h : Sound db) (leases : Table Nat LeaseRow) :
    Moves db { db with leases } := ⟨{ h with }, { Kept.refl db with }, fun _ _ _ hr _ => hr⟩

theorem Sound.commit {db : Db} (h : Sound db) {β : Type} {x : Option (β × Db)}
    (hx : ∀ b db', x = some (b, db') → Moves db db') : Moves db (commit db x) := by
  unfold Supervisor.commit
  cases x with
  | none => exact h.moves
  | some e => exact hx e.1 e.2 rfl

theorem Inv.step (h : Inv s) {a : Action} (hs : act set s a = some t) : Advances s a t := by
  cases a with
  | provision i q now =>
    cases hs
    exact h.moves (h.db.commit fun _ _ hx => h.db.provisioned hx) rfl rfl
  | register i m a r ids =>
    cases hs
    exact h.moves (h.db.commit fun _ _ hx => (h.db.registered hx).1) rfl rfl
  | heartbeat i m a now write =>
    cases hs
    refine h.moves ?_ rfl rfl
    dsimp only
    cases hb : Supervisor.heartbeat (set.manager i) i s.db m a now write with
    | none => exact h.db.moves
    | some db' => exact h.db.heartbeat hb
  | staleConnection i connectionId a r =>
    cases hs
    exact h.moves (h.db.commit fun _ _ hx => h.db.staleConnection hx) rfl rfl
  | scanConnections i limit now =>
    obtain ⟨-, hs⟩ := guard_some hs
    cases hs
    exact h.moves h.db.moves rfl rfl
  | expireNext i busy r => exact h.expireNext hs
  | scanFailedWorkers i limit =>
    obtain ⟨-, hs⟩ := guard_some hs
    cases hs
    exact h.moves h.db.moves rfl rfl
  | admitNext i busy now => exact h.admitNext hs
  | claimRetirement i n workerId claimId now => exact h.claimRetirement hs
  | retire i n answer now => exact h.retire hs
  | restart i =>
    cases hs
    exact h.restart i
  | quarantineWorker workerId =>
    cases hs
    refine h.moves ?_ rfl rfl
    dsimp only
    cases hq : Supervisor.quarantineWorker s.db workerId with
    | none => exact h.db.moves
    | some db' => exact h.db.quarantineWorker hq
  | acquireLease leaseId workerId now validUntil =>
    obtain ⟨l, hl, hs⟩ := bind_some hs
    obtain ⟨-, hs⟩ := guard_some hs
    cases hs
    exact h.moves (h.db.setLease _) rfl rfl
  | renewLease leaseId now validUntil =>
    obtain ⟨l, hl, hs⟩ := bind_some hs
    obtain ⟨-, hs⟩ := guard_some hs
    cases hs
    exact h.moves (h.db.setLease _) rfl rfl
  | releaseLease leaseId now =>
    obtain ⟨l, hl, hs⟩ := bind_some hs
    cases hs
    exact h.moves (h.db.setLease _) rfl rfl

end Steps

theorem Inv.initial : Inv .initial := ⟨.empty, nofun, nofun, nofun⟩

theorem Inv.of_reach {set : Settings} {as : List Action} {s : State}
    (h : Reach (system set) as s) : Inv s := by
  refine h.invariant Inv ?_ fun s a t hinv hst => (hinv.step hst).inv
  rintro s rfl
  exact .initial

/-- What holds of the hosts of a database. -/
structure OneOwner (db : Db) : Prop where
  credential : ∀ c d p q, db.credentials.get c = some p → db.credentials.get d = some q →
    p.supervisorId = q.supervisorId → p.revokedAt = none → q.revokedAt = none → c = d
  worker : ∀ v w x y c d p q, db.workers.get v = some x → db.workers.get w = some y →
    x.supervisorId = y.supervisorId → db.connections.get c = some p →
    db.connections.get d = some q → p.workerId = v → q.workerId = w → p.state = .active →
    q.state = .active → v = w
  connection : ∀ c d p q, db.connections.get c = some p → db.connections.get d = some q →
    p.workerId = q.workerId → p.state = .active → q.state = .active → c = d

/-- A fenced worker has a retirement: one that was fenced in person, and one whose connection was. -/
def FencesRetire (db : Db) : Prop :=
  (∀ id ∈ db.fences, (db.retirements.get id).isSome) ∧
    ∀ c p reason closedAt, db.connections.get c = some p → p.state = .fenced reason closedAt →
      (db.retirements.get p.workerId).isSome

theorem Sound.oneOwner {db : Db} (h : Sound db) : OneOwner db where
  credential := h.credential
  worker := by
    intro v w x y c d p q hx hy hsame hp hq hpv hqw hpa hqa
    obtain ⟨x', hx', hxs, -⟩ := h.worker c p hp
    obtain ⟨y', hy', hys, -⟩ := h.worker d q hq
    rw [hpv, hx] at hx'
    rw [hqw, hy] at hy'
    cases hx'
    cases hy'
    have hcd := h.alone c d p q hp hq (hxs.symm.trans (hsame.trans hys)) hpa hqa
    subst hcd
    rw [hp] at hq
    cases hq
    exact hpv.symm.trans hqw
  connection := fun _ _ _ _ hp hq hid hpa hqa => h.one_active hp hq hid hpa hqa

/-- Of every run of any number of control planes: a host has one owner, a fenced worker has a
retirement, what is stopped or closed stays so in every later state, a retirement is completed by the
holder of its current claim, and a registration that is rejected leaves the database as it was, but
for a connection whose deadline had passed. -/
theorem boots_fenced (set : Settings) {as : List Action} {s : State}
    (h : Reach (system set) as s) :
    OneOwner s.db ∧ FencesRetire s.db ∧
      (∀ t, Steps (system set) s t → Kept s.db t.db) ∧
      (∀ a t, act set s a = some t → ∀ id r completedAt, t.db.retirements.get id = some r →
        r.state = .completed completedAt → s.db.retirements.get id = some r ∨
          ∃ i n now, a = .retire i n none now ∧ CompletedBy s i n id) ∧
      ∀ i m a r ids t, act set s (.register i m a r ids) = some t →
        (register (set.manager i) i s.db m a r ids = none ∧ t = s) ∨
          ∃ out, register (set.manager i) i s.db m a r ids = some (out, t.db) ∧
            Registered s.db t.db a r.now out := by
  have hinv := Inv.of_reach h
  refine ⟨hinv.db.oneOwner, ⟨hinv.db.fences, hinv.db.fenced⟩, ?_, ?_, ?_⟩
  · intro t hst
    induction hst with
    | refl => exact .refl _
    | snoc hst hu ih =>
      obtain ⟨bs, ht⟩ := h.steps hst
      exact ih.trans ((Inv.of_reach ht).step hu).kept
  · intro a t hs
    exact (hinv.step hs).completed
  · intro i m a r ids t hs
    cases hs
    cases hr : register (set.manager i) i s.db m a r ids with
    | none => exact .inl ⟨rfl, rfl⟩
    | some e => exact .inr ⟨e.1, rfl, (hinv.db.registered hr).2⟩

/-- The worker of a retirement is one of its boot that has stopped; no connection of it is active in any
later state. -/
theorem retired_silent (set : Settings) {as : List Action} {s : State} (h : Reach (system set) as s)
    {id : Nat} {r : RetirementRow} (hr : s.db.retirements.get id = some r) :
    (∃ w, s.db.workers.get id = some w ∧ w.supervisorId = r.supervisorId ∧ w.bootId = r.bootId ∧
      w.state.Stopped) ∧
    ∀ t, Steps (system set) s t → ∀ c p, t.db.connections.get c = some p → p.workerId = id →
      p.state ≠ .active := by
  refine ⟨(Inv.of_reach h).db.retired id r hr, fun t ht c p hp hid => ?_⟩
  have hlater : (t.db.retirements.get id).isSome := by
    clear hp
    induction ht with
    | refl => exact Option.isSome_of_eq_some hr
    | snoc hst hu ih =>
      obtain ⟨bs, ht⟩ := h.steps hst
      exact ((Inv.of_reach ht).step hu).kept.retirement id ih
  obtain ⟨r', hr'⟩ := Option.isSome_iff_exists.mp hlater
  obtain ⟨bs, hreach⟩ := h.steps ht
  exact (Inv.of_reach hreach).db.silent id r' c p hr' hp hid

namespace Example

def settings : Settings where
  manager _ := ⟨1, 2, 3, [4], 10, 30, 5, 120⟩
  boot _ := ⟨fun _ _ => true, some 8, 1000⟩
  retiresFenced _ := true

/-- The boot `b` of host 1 asks for its worker. -/
def provisioned (b : Nat) : Action :=
  .provision 0 ⟨b, 1, b, b, b, b, some 4, 9⟩ b

/-- Its transport registers at the control plane `i`. -/
def registers (i b : Nat) (now : Time) : Action :=
  .register i ⟨b, 1, b, b, 1, 2, 3, [1], [4], true, some 4, b⟩ ⟨1, b, b, b⟩
    ⟨now, now, now, now, now⟩ ⟨b, b⟩

/-- A second boot takes the host over, and the first is retired by a third control plane. -/
def run : List Action :=
  [provisioned 1, registers 0 1 2, provisioned 3, registers 1 3 4,
    .claimRetirement 2 0 1 7 5, .retire 2 0 none 6, .retire 2 0 none 6, .retire 2 0 none 6,
    .retire 2 0 none 6, .retire 2 0 none 6, .retire 2 0 none 6]

def final : State := (run.foldlM (act settings) .initial).getD .initial

theorem run_eq : run.foldlM (act settings) .initial = some final := rfl

theorem reach_final : Reach (system settings) run final :=
  Reach.foldlM (fun _ _ _ hs => hs) (.init rfl) run run_eq

theorem final_rows : (final.db.workers.get 1).map (·.state) = some .terminated ∧
    (final.db.retirements.get 1).map (·.state) = some (.completed 6) ∧
    (final.db.connections.get 3).map (·.state) = some .active := by
  decide

end Example

theorem boots_fenced_takeover :
    (Example.final.db.retirements.get 1).map (·.state) = some (.completed 6) ∧
      (Example.final.db.connections.get 3).map (·.state) = some .active ∧
      OneOwner Example.final.db ∧ FencesRetire Example.final.db ∧
      Kept Example.final.db Example.final.db := by
  obtain ⟨howner, hfences, hkept, -⟩ := boots_fenced Example.settings Example.reach_final
  exact ⟨Example.final_rows.2.1, Example.final_rows.2.2, howner, hfences, hkept _ .refl⟩

theorem retired_silent_takeover : (Example.final.db.retirements.get 1).isSome ∧
    ∀ c p, Example.final.db.connections.get c = some p → p.workerId = 1 → p.state ≠ .active := by
  have h : (Example.final.db.retirements.get 1).isSome := by decide
  obtain ⟨r, hr⟩ := Option.isSome_iff_exists.mp h
  exact ⟨h, (retired_silent Example.settings Example.reach_final hr).2 _ .refl⟩

end Supervisor
end PiCloud
