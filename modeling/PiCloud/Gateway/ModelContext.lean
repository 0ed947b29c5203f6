import PiCloud.Gateway.ModelSessions

/-!
# Gateway.ModelContext

What is sent with `previous_response_id` stands for the full context.

* `Continues`: the response that is named has the significant items of what was left out.
* `InUse`: a session in use is the entry of its key, and of one request.
* `Baseline`, `Gateway.Sound`: the digests of a session are those of its response; the invariant.
* `Gateway.Sound.advance`: what a request does to its own session and to itself.
* `context_continued`: both hold in every run.
-/

namespace PiCloud
namespace ModelGateway

open Lib

variable {δ : Type} {codec : Codec δ}

/-- A payload that names a response leaves out what the response was made from and its output, item by
item up to what is not significant, and has its parameters; another payload leaves out nothing. -/
def Continues (codec : Codec δ) (provider : List Response) (r : Request) (p : Payload) : Prop :=
  p.fields = r.fields ∧ (p.previous = none → p.input = r.input) ∧
    ∀ id, p.previous = some id → ∃ resp ∈ provider, resp.id = id ∧ resp.fields = r.fields ∧
      ∃ k, p.input = r.input.drop k ∧
        (resp.input ++ resp.output).map (canonicalItem codec) =
          (r.input.take k).map (canonicalItem codec)

/-- A session in use is the entry of its key, busy, and in use by one request. -/
structure InUse (g : Gateway δ) : Prop where
  entry : ∀ n c, g.calls n = some c →
    g.entries.get c.key = some c.ref ∧ (g.sessions c.ref).busy = true
  alone : ∀ m n c d, g.calls m = some c → g.calls n = some d → c.ref = d.ref → m = n

/-- The response of a session, with its parameters and the digests of its context. -/
def Baseline (codec : Codec δ) (provider : List Response) (s : Session δ) : Prop :=
  ∀ id, s.responseId = some id → ∃ resp ∈ provider, resp.id = id ∧
    s.parameters = some (codec.digest (.object resp.fields)) ∧
    s.input = (resp.input ++ resp.output).map (itemDigest codec)

def Call.Made (c : Call) : Prop := c.phase = .ready ∨ ∃ http, c.phase = .streaming http

/-- A payload that stands for its request, and a session whose baseline has the parameters of the
request. -/
def Call.Own (codec : Codec δ) (provider : List Response) (c : Call) (s : Session δ) : Prop :=
  Continues codec provider c.request c.payload ∧
    (s.responseId ≠ none → s.parameters = some (c.request.parameters codec))

structure Gateway.Sound (codec : Codec δ) (g : Gateway δ) : Prop extends InUse g where
  key : ∀ k ref, g.entries.get k = some ref → ref < g.nextRef ∧ (g.sessions ref).key = k
  baseline : ∀ k ref, g.entries.get k = some ref → Baseline codec g.provider (g.sessions ref)
  made : ∀ n c, g.calls n = some c → c.Made → c.Own codec g.provider (g.sessions c.ref)
  sent : ∀ x ∈ g.sent, Continues codec g.provider x.request x.payload
  ids : (g.provider.map (·.id)).Nodup

/-! ## One payload -/

theorem map_canonical (hinj : Function.Injective codec.digest) {a b : List Value}
    (h : a.map (itemDigest codec) = b.map (itemDigest codec)) :
    a.map (canonicalItem codec) = b.map (canonicalItem codec) := by
  have hmap : ∀ l : List Value,
      l.map (itemDigest codec) = (l.map (canonicalItem codec)).map codec.digest := by
    intro l
    rw [List.map_map]
    rfl
  rw [hmap, hmap] at h
  exact List.map_injective_iff.mpr hinj h

theorem Baseline.forget {provider : List Response} {s : Session δ} (h : s.responseId = none) :
    Baseline codec provider s := by
  intro id hid
  cases h.symm.trans hid

theorem Baseline.mono {provider provider' : List Response} {s : Session δ}
    (h : Baseline codec provider s) (hle : ∀ r ∈ provider, r ∈ provider') :
    Baseline codec provider' s := by
  intro id hid
  obtain ⟨resp, hmem, hrest⟩ := h id hid
  exact ⟨resp, hle _ hmem, hrest⟩

theorem Continues.mono {provider provider' : List Response} {r : Request} {p : Payload}
    (h : Continues codec provider r p) (hle : ∀ r ∈ provider, r ∈ provider') :
    Continues codec provider' r p := by
  obtain ⟨hfields, hfull, hnamed⟩ := h
  refine ⟨hfields, hfull, fun id hid => ?_⟩
  obtain ⟨resp, hmem, hrest⟩ := hnamed id hid
  exact ⟨resp, hle _ hmem, hrest⟩

theorem payload_continues [DecidableEq δ] (hinj : Function.Injective codec.digest) {provider : List Response}
    {s : Session δ} (h : Baseline codec provider s) (r : Request) :
    Continues codec provider r (r.payload codec s) := by
  unfold Request.payload
  split
  · rename_i hmatched
    unfold Request.matched at hmatched
    rw [Bool.and_eq_true, Bool.and_eq_true, decide_eq_true_eq, decide_eq_true_eq] at hmatched
    obtain ⟨⟨hsome, hparameters⟩, hinput⟩ := hmatched
    refine ⟨rfl, fun hnone => ?_, fun id hid => ?_⟩
    · dsimp only at hnone
      rw [hnone] at hsome
      cases hsome
    · obtain ⟨resp, hmem, hresp, hp, hi⟩ := h id hid
      have hfields : Value.object resp.fields = .object r.fields :=
        hinj (Option.some_inj.mp (hp.symm.trans hparameters))
      refine ⟨resp, hmem, hresp, Value.object.inj hfields, s.input.length, rfl, ?_⟩
      refine map_canonical hinj ?_
      rw [← hi, List.map_take]
      exact hinput
  · exact ⟨rfl, fun _ => rfl, nofun⟩

theorem effective_canonical {g : Gateway δ} {r : Request} {p : Payload} {input : List Value}
    (hids : (g.provider.map (·.id)).Nodup) (h : Continues codec g.provider r p)
    (he : g.effective p = some input) :
    input.map (canonicalItem codec) = r.input.map (canonicalItem codec) := by
  obtain ⟨-, hfull, hnamed⟩ := h
  unfold Gateway.effective at he
  split at he
  · rename_i hnone
    cases he
    rw [hfull hnone]
  · rename_i id hid
    obtain ⟨found, hfound, rfl⟩ := Option.map_eq_some_iff.mp he
    obtain ⟨resp, hmem, hresp, -, k, hrest, hcanon⟩ := hnamed id hid
    have hfid := List.find?_some hfound
    rw [decide_eq_true_eq] at hfid
    have hsame := List.inj_on_of_nodup_map hids (List.mem_of_find?_eq_some hfound) hmem
      (hfid.trans hresp.symm)
    rw [hsame, List.map_append, hcanon, hrest, ← List.map_append, List.take_append_drop]

/-! ## Changes of one session and one call -/

namespace Gateway

variable {g : Gateway δ} {n ref : Nat} {c : Call}

theorem sessions_setSession (ref r : Nat) (s : Session δ) :
    (g.setSession ref s).sessions r = if r = ref then s else g.sessions r :=
  Function.update_apply ..

theorem calls_setCall (n m : Nat) (c : Option Call) :
    (g.setCall n c).calls m = if m = n then c else g.calls m :=
  Function.update_apply ..

theorem Sound.advance (h : Sound codec g) (hc : g.calls n = some c) {u : Session δ} {c' : Call}
    (hbusy : u.busy = true) (hkey : u.key = (g.sessions c.ref).key)
    (hb : Baseline codec g.provider u) (hr : c'.ref = c.ref) (hk : c'.key = c.key)
    (hm : c'.Made → c'.Own codec g.provider u) :
    Sound codec ((g.setSession c.ref u).setCall n (some c')) where
  entry := by
    intro m d hd
    rw [calls_setCall] at hd
    show g.entries.get d.key = some d.ref ∧ ((g.setSession c.ref u).sessions d.ref).busy = true
    rw [sessions_setSession]
    split at hd
    · cases hd
      rw [hr, hk, if_pos rfl]
      exact ⟨(h.entry n c hc).1, hbusy⟩
    · rename_i hne
      rw [if_neg fun heq => hne (h.alone m n d c hd hc heq)]
      exact h.entry m d hd
  alone := by
    intro m p d e hd he heq
    rw [calls_setCall] at hd he
    split at hd
    · rename_i hmn
      split at he
      · rename_i hpn
        rw [hmn, hpn]
      · cases hd
        rw [hr] at heq
        rw [hmn]
        exact h.alone n p c e hc he heq
    · split at he
      · rename_i hpn
        cases he
        rw [hr] at heq
        rw [hpn]
        exact h.alone m n d c hd hc heq
      · exact h.alone m p d e hd he heq
  key := by
    intro k ref hget
    obtain ⟨hlt, hk'⟩ := h.key k ref hget
    refine ⟨hlt, ?_⟩
    show ((g.setSession c.ref u).sessions ref).key = k
    rw [sessions_setSession]
    split
    · rename_i heq
      rw [hkey, ← heq]
      exact hk'
    · exact hk'
  baseline := by
    intro k ref hget
    show Baseline codec g.provider ((g.setSession c.ref u).sessions ref)
    rw [sessions_setSession]
    split
    · exact hb
    · exact h.baseline k ref hget
  made := by
    intro m d hd hmade
    rw [calls_setCall] at hd
    show d.Own codec g.provider ((g.setSession c.ref u).sessions d.ref)
    rw [sessions_setSession]
    split at hd
    · cases hd
      rw [if_pos hr]
      exact hm hmade
    · rename_i hne
      rw [if_neg fun heq => hne (h.alone m n d c hd hc heq)]
      exact h.made m d hd hmade
  sent := h.sent
  ids := h.ids

theorem Sound.setFree (h : Sound codec g) (hfree : ∀ n c, g.calls n = some c → c.ref ≠ ref)
    {u : Session δ} (hkey : u.key = (g.sessions ref).key)
    (hb : Baseline codec g.provider u) : Sound codec (g.setSession ref u) where
  entry := by
    intro m d hd
    rw [sessions_setSession, if_neg (hfree m d hd)]
    exact h.entry m d hd
  alone := h.alone
  key := by
    intro k r hget
    obtain ⟨hlt, hk⟩ := h.key k r hget
    refine ⟨hlt, ?_⟩
    rw [sessions_setSession]
    split
    · rename_i heq
      rw [hkey, ← heq]
      exact hk
    · exact hk
  baseline := by
    intro k r hget
    rw [sessions_setSession]
    split
    · exact hb
    · exact h.baseline k r hget
  made := by
    intro m d hd hmade
    rw [sessions_setSession, if_neg (hfree m d hd)]
    exact h.made m d hd hmade
  sent := h.sent
  ids := h.ids

theorem Sound.addCall (h : Sound codec g) (hfree : ∀ n c, g.calls n = some c → c.ref ≠ ref)
    (hr : c.ref = ref) (hentry : g.entries.get c.key = some ref)
    (hbusy : (g.sessions ref).busy = true) (hm : ¬ c.Made) :
    Sound codec (g.setCall n (some c)) where
  entry := by
    intro m d hd
    rw [calls_setCall] at hd
    split at hd
    · cases hd
      rw [hr]
      exact ⟨hentry, hbusy⟩
    · exact h.entry m d hd
  alone := by
    intro m p d e hd he heq
    rw [calls_setCall] at hd he
    split at hd
    · rename_i hmn
      split at he
      · rename_i hpn
        rw [hmn, hpn]
      · cases hd
        exact absurd (heq.symm.trans hr) (hfree p e he)
    · split at he
      · cases he
        exact absurd (heq.trans hr) (hfree m d hd)
      · exact h.alone m p d e hd he heq
  key := h.key
  baseline := h.baseline
  made := by
    intro m d hd hmade
    rw [calls_setCall] at hd
    split at hd
    · cases hd
      exact absurd hmade hm
    · exact h.made m d hd hmade
  sent := h.sent
  ids := h.ids

theorem Sound.dropCall (h : Sound codec g) (n : Nat) : Sound codec (g.setCall n none) := by
  have hold : ∀ m d, (g.setCall n none).calls m = some d → m ≠ n ∧ g.calls m = some d := by
    intro m d hd
    rw [calls_setCall] at hd
    split at hd
    · cases hd
    · rename_i hne
      exact ⟨hne, hd⟩
  exact
    { entry := fun m d hd => h.entry m d (hold m d hd).2
      alone := fun m p d e hd he => h.alone m p d e (hold m d hd).2 (hold p e he).2
      key := h.key
      baseline := h.baseline
      made := fun m d hd => h.made m d (hold m d hd).2
      sent := h.sent
      ids := h.ids }

theorem Sound.remove (h : Sound codec g) (hfree : ∀ n c, g.calls n = some c → c.ref ≠ ref) :
    Sound codec (g.remove ref) := by
  unfold Gateway.remove
  split
  · rename_i hget
    have hdeleted : ∀ k r, (g.entries.delete (g.sessions ref).key).get k = some r →
        g.entries.get k = some r ∧ r ≠ ref := by
      intro k r hr
      obtain ⟨hne, hr⟩ := InsertionMap.get_delete_iff.mp hr
      refine ⟨hr, fun heq => hne ?_⟩
      rw [← heq]
      exact (h.key k r hr).2.symm
    have hother : ∀ r, r ≠ ref →
        (g.setSession ref { g.sessions ref with input := [] }).sessions r = g.sessions r := by
      intro r hne
      rw [sessions_setSession, if_neg hne]
    exact
      { entry := by
          intro m d hd
          obtain ⟨hentry, hbusy⟩ := h.entry m d hd
          have hne := hfree m d hd
          constructor
          · show (g.entries.delete (g.sessions ref).key).get d.key = some d.ref
            rw [InsertionMap.get_delete, if_neg]
            · exact hentry
            · intro heq
              rw [heq, hget] at hentry
              exact hne (Option.some_inj.mp hentry).symm
          · have := hother d.ref hne
            exact (congrArg Session.busy this).trans hbusy
        alone := h.alone
        key := by
          intro k r hr
          obtain ⟨hold, hne⟩ := hdeleted k r hr
          obtain ⟨hlt, hk⟩ := h.key k r hold
          exact ⟨hlt, (congrArg Session.key (hother r hne)).trans hk⟩
        baseline := by
          intro k r hr
          obtain ⟨hold, hne⟩ := hdeleted k r hr
          have := h.baseline k r hold
          rw [← hother r hne] at this
          exact this
        made := by
          intro m d hd hmade
          have := h.made m d hd hmade
          rw [← hother d.ref (hfree m d hd)] at this
          exact this
        sent := h.sent
        ids := h.ids }
  · exact h

theorem Sound.free (h : Sound codec g) (hbusy : (g.sessions ref).busy = false) :
    ∀ n c, g.calls n = some c → c.ref ≠ ref := by
  rintro n c hc rfl
  have := (h.entry n c hc).2
  rw [hbusy] at this
  cases this

theorem get_remove_self (g : Gateway δ) (ref : Nat)
    (hget : g.entries.get (g.sessions ref).key = some ref) :
    (g.remove ref).entries.get (g.sessions ref).key = none := by
  unfold Gateway.remove
  rw [if_pos hget]
  exact (InsertionMap.get_delete ..).trans (if_pos rfl)

theorem get_remove_none {key : Nat} (hget : g.entries.get key = none) :
    (g.remove ref).entries.get key = none := by
  unfold Gateway.remove
  split
  · refine (InsertionMap.get_delete ..).trans ?_
    split
    · rfl
    · exact hget
  · exact hget

theorem Sound.insert (h : Sound codec g) {key : Nat} (hkey : g.entries.get key = none)
    (r : Request) : Sound codec (g.insert n key r) := by
  have hnew : ∀ k ref, (g.entries.set key g.nextRef).get k = some ref →
      (k = key ∧ ref = g.nextRef) ∨ (g.entries.get k = some ref ∧ ref < g.nextRef) := by
    intro k ref hget
    rw [InsertionMap.get_set] at hget
    split at hget
    · rename_i heq
      cases hget
      exact .inl ⟨heq, rfl⟩
    · exact .inr ⟨hget, (h.key k ref hget).1⟩
  have hother : ∀ ref, ref < g.nextRef →
      (g.insert n key r).sessions ref = g.sessions ref := fun ref hlt =>
    (Function.update_apply ..).trans (if_neg (Nat.ne_of_lt hlt))
  have hself : (g.insert n key r).sessions g.nextRef =
      { id := g.nextId, key, busy := true, created := g.now, used := g.now } :=
    Function.update_self ..
  have hlt : ∀ m d, g.calls m = some d → d.ref < g.nextRef := fun m d hd =>
    (h.key _ _ (h.entry m d hd).1).1
  have hcall : ∀ m d, (g.insert n key r).calls m = some d →
      (m = n ∧ d = { ref := g.nextRef, key, request := r }) ∨ g.calls m = some d := by
    intro m d hd
    rw [show (g.insert n key r).calls m = _ from calls_setCall ..] at hd
    split at hd
    · rename_i heq
      cases hd
      exact .inl ⟨heq, rfl⟩
    · exact .inr hd
  exact
    { entry := by
        intro m d hd
        obtain ⟨-, rfl⟩ | hd := hcall m d hd
        · rw [hself]
          exact ⟨InsertionMap.get_set_self .., rfl⟩
        · obtain ⟨hentry, hbusy⟩ := h.entry m d hd
          rw [hother _ (hlt m d hd)]
          refine ⟨?_, hbusy⟩
          refine (InsertionMap.get_set_ne _ _ fun heq => ?_).trans hentry
          rw [heq, hkey] at hentry
          cases hentry
      alone := by
        intro m p d e hd he heq
        obtain ⟨hm, rfl⟩ | hd := hcall m d hd
        · obtain ⟨hp, rfl⟩ | he := hcall p e he
          · rw [hm, hp]
          · exact absurd heq (Nat.ne_of_gt (hlt p e he))
        · obtain ⟨hp, rfl⟩ | he := hcall p e he
          · exact absurd heq (Nat.ne_of_lt (hlt m d hd))
          · exact h.alone m p d e hd he heq
      key := by
        intro k ref hget
        obtain ⟨rfl, rfl⟩ | ⟨hget, hlt⟩ := hnew k ref hget
        · rw [hself]
          exact ⟨Nat.lt_succ_self _, rfl⟩
        · rw [hother ref hlt]
          exact ⟨Nat.lt_succ_of_lt hlt, (h.key k ref hget).2⟩
      baseline := by
        intro k ref hget
        obtain ⟨rfl, rfl⟩ | ⟨hget, hlt⟩ := hnew k ref hget
        · rw [hself]
          exact .forget rfl
        · rw [hother ref hlt]
          exact h.baseline k ref hget
      made := by
        intro m d hd hmade
        obtain ⟨-, rfl⟩ | hd := hcall m d hd
        · obtain hmade | ⟨http, hmade⟩ := hmade <;> cases hmade
        · rw [hother _ (hlt m d hd)]
          exact h.made m d hd hmade
      sent := h.sent
      ids := h.ids }

theorem Sound.respond (h : Sound codec g) {p : Payload} {id : Nat} {output : List Value}
    {g' : Gateway δ} (hs : g.respond p id output = some g') :
    Sound codec g' ∧ ∃ input, g.effective p = some input ∧
      g' = { g with provider := { id, fields := p.fields, input, output } :: g.provider } := by
  unfold Gateway.respond at hs
  obtain ⟨hnew, hs⟩ := guard_some hs
  obtain ⟨input, hinput, hs⟩ := bind_some hs
  cases hs
  have hle : ∀ r ∈ g.provider,
      r ∈ ({ id, fields := p.fields, input, output } : Response) :: g.provider :=
    fun _ hr => List.mem_cons_of_mem _ hr
  refine ⟨?_, input, hinput, rfl⟩
  exact
    { entry := h.entry
      alone := h.alone
      key := h.key
      baseline := fun k ref hget => (h.baseline k ref hget).mono hle
      made := fun m d hd hmade =>
        ⟨(h.made m d hd hmade).1.mono hle, (h.made m d hd hmade).2⟩
      sent := fun x hx => (h.sent x hx).mono hle
      ids := List.nodup_cons.mpr ⟨hnew, h.ids⟩ }

/-! ## The turns -/

theorem Sound.nextId (h : Sound codec g) (k : Nat) : Sound codec { g with nextId := k } :=
  { entry := h.entry, alone := h.alone, key := h.key, baseline := h.baseline, made := h.made,
    sent := h.sent, ids := h.ids }

theorem Sound.own_baseline (h : Sound codec g) (hc : g.calls n = some c) :
    Baseline codec g.provider (g.sessions c.ref) :=
  h.baseline _ _ (h.entry n c hc).1

theorem Sound.setCall (h : Sound codec g) (hc : g.calls n = some c) {c' : Call}
    (hr : c'.ref = c.ref) (hk : c'.key = c.key)
    (hm : c'.Made → c'.Own codec g.provider (g.sessions c.ref)) :
    Sound codec (g.setCall n (some c')) := by
  have hself : g.setSession c.ref (g.sessions c.ref) = g := by
    unfold Gateway.setSession
    rw [Function.update_eq_self]
  have := h.advance hc (h.entry n c hc).2 rfl (h.own_baseline hc) hr hk hm
  rwa [hself] at this

theorem Sound.finishing (h : Sound codec g) (hc : g.calls n = some c) (keep : Bool) :
    Sound codec (g.setCall n (some { c with phase := .finishing keep })) := by
  refine h.setCall hc rfl rfl fun hmade => ?_
  obtain hmade | ⟨http, hmade⟩ := hmade <;> cases hmade

theorem Sound.create {limits : Limits} (h : Sound codec g) {key victim : Nat}
    (hkey : g.entries.get key = none) {r : Request} {g' : Gateway δ}
    (hs : g.create limits n key r victim = some g') : Sound codec g' := by
  unfold Gateway.create at hs
  split at hs
  · cases hs
    exact h.insert hkey r
  · obtain ⟨hevict, rfl⟩ := ite_some hs
    unfold Gateway.evictable at hevict
    rw [Bool.and_eq_true, Bool.and_eq_true, Bool.not_eq_true'] at hevict
    exact (h.remove (h.free hevict.1.2)).insert (get_remove_none hkey) r

theorem Sound.acquire {limits : Limits} (h : Sound codec g) {key victim : Nat} {r : Request}
    {g' : Gateway δ} (hs : g.acquire limits n key r victim = some g') : Sound codec g' := by
  unfold Gateway.acquire at hs
  split at hs
  · rename_i hkey
    exact h.create hkey hs
  · rename_i ref hkey
    split at hs
    · cases hs
    rename_i hbusy
    have hfree := h.free (Bool.eq_false_iff.mpr hbusy)
    have hsame := (h.key key ref hkey).2
    split at hs
    · -- the session is used again
      cases hs
      have hset := h.setFree (u := { g.sessions ref with busy := true }) hfree rfl
        (h.baseline key ref hkey)
      refine hset.addCall hfree rfl hkey ?_ ?_
      · rw [sessions_setSession, if_pos rfl]
      · rintro (hmade | ⟨http, hmade⟩) <;> cases hmade
    · refine (h.remove hfree).create ?_ hs
      have := get_remove_self g ref (by rw [hsame]; exact hkey)
      rwa [hsame] at this

theorem Sound.finish (h : Sound codec g) (hc : g.calls n = some c) (keep : Bool) :
    Sound codec (g.finish n c keep) := by
  have hdrop := h.dropCall n
  have hfree : ∀ m d, (g.setCall n none).calls m = some d → d.ref ≠ c.ref := by
    intro m d hd heq
    rw [calls_setCall] at hd
    split at hd
    · cases hd
    · rename_i hne
      exact hne (h.alone m n d c hd hc heq)
  unfold Gateway.finish
  dsimp only
  split
  · exact hdrop
  split
  · exact hdrop.setFree hfree rfl (h.own_baseline hc)
  split
  · exact hdrop.remove hfree
  · exact (hdrop.setFree (u := { (g.sessions c.ref).forget with
      id := g.nextId, busy := false, used := g.now }) hfree rfl (.forget rfl)).nextId _

theorem Sound.expire {limits : Limits} (h : Sound codec g) (ref : Nat) :
    Sound codec (g.expire limits ref) := by
  unfold Gateway.expire
  dsimp only
  split
  · rename_i hidle
    rw [Bool.and_eq_true, Bool.not_eq_true'] at hidle
    exact h.remove (h.free hidle.1)
  · exact h

theorem Sound.send (h : Sound codec g) (hc : g.calls n = some c) (hp : c.phase = .ready) :
    Sound codec (g.send n c) := by
  have hown := h.made n c hc (.inl hp)
  have hsent : Sound codec { g with sent := { request := c.request, payload := c.payload } :: g.sent } :=
    { entry := h.entry
      alone := h.alone
      key := h.key
      baseline := h.baseline
      made := h.made
      sent := by
        intro x hx
        obtain rfl | hx := List.mem_cons.mp hx
        · exact hown.1
        · exact h.sent x hx
      ids := h.ids }
  exact hsent.setCall hc rfl rfl fun _ => hown

theorem Sound.fallBack (h : Sound codec g) (hc : g.calls n = some c) (hm : c.Made) :
    Sound codec (g.fallBack n c) := by
  have hown := h.made n c hc hm
  exact h.advance hc (u := { g.sessions c.ref with httpUntil := some (g.now + httpPreference) })
    (h.entry n c hc).2 rfl (h.own_baseline hc) rfl rfl fun _ => hown

theorem Sound.succeed (h : Sound codec g) (hc : g.calls n = some c) (hm : c.Made)
    {completion : Option (Nat × List Value)}
    (hresp : ∀ id output, completion = some (id, output) → ∃ resp ∈ g.provider, resp.id = id ∧
      resp.fields = c.request.fields ∧ resp.output = output ∧
        resp.input.map (canonicalItem codec) = c.request.input.map (canonicalItem codec)) :
    Sound codec (g.succeed codec n c completion) := by
  obtain ⟨-, hparameters⟩ := h.made n c hc hm
  have hb := h.own_baseline hc
  have hend : ∀ keep, ¬ Call.Made { c with phase := .finishing keep } := by
    rintro keep (hmade | ⟨http, hmade⟩) <;> cases hmade
  unfold Gateway.succeed
  dsimp only
  split
  · have hb' : Baseline codec g.provider { g.sessions c.ref with
        parameters := some (c.request.parameters codec) } := by
      intro id hid
      obtain ⟨resp, hmem, hrid, hp, hi⟩ := hb id hid
      refine ⟨resp, hmem, hrid, ?_, hi⟩
      rw [← hp, hparameters fun hnone => by cases hnone.symm.trans hid]
    exact h.advance hc (h.entry n c hc).2 rfl hb' rfl rfl fun hmade => absurd hmade (hend true)
  split
  · exact h.finishing hc false
  · have hb' : Baseline codec g.provider { g.sessions c.ref with
        parameters := some (c.request.parameters codec)
        input := c.request.fingerprints codec ++ (completion.elim [] (·.2)).map (itemDigest codec)
        responseId := completion.map (·.1) } := by
      intro id hid
      obtain ⟨⟨_, output⟩, rfl, rfl⟩ := Option.map_eq_some_iff.mp hid
      obtain ⟨resp, hmem, hrid, hfields, houtput, hcanon⟩ := hresp _ output rfl
      refine ⟨resp, hmem, hrid, ?_, ?_⟩
      · rw [hfields]
        rfl
      · have hdigest := congrArg (List.map codec.digest) hcanon
        rw [List.map_map, List.map_map] at hdigest
        rw [List.map_append, houtput]
        exact congrArg (· ++ output.map (itemDigest codec)) hdigest.symm
    exact h.advance hc (h.entry n c hc).2 rfl hb' rfl rfl fun hmade => absurd hmade (hend true)

section Attempts

variable [DecidableEq δ] (hinj : Function.Injective codec.digest)

include hinj

theorem Sound.prepare (h : Sound codec g) (hc : g.calls n = some c) :
    Sound codec (g.prepare codec n c) := by
  have hb := h.own_baseline hc
  have hpayload := payload_continues hinj hb c.request
  unfold Gateway.prepare
  dsimp only
  split
  · -- the session begins again
    refine Sound.advance (h.nextId (g.nextId + 1)) hc ?_ rfl (.forget rfl) rfl rfl fun _ => ⟨hpayload, ?_⟩
    · exact (h.entry n c hc).2
    · exact fun hne => absurd rfl hne
  · rename_i hsame
    refine Sound.advance (h.nextId (g.nextId + 1)) hc (h.entry n c hc).2 rfl hb rfl rfl
      fun _ => ⟨hpayload, fun hne => ?_⟩
    -- a baseline that stays was matched
    have hsome : (g.sessions c.ref).responseId.isSome = true := Option.isSome_iff_ne_none.mpr hne
    rw [hsome, Bool.true_or, Bool.and_true, Bool.not_eq_true', Bool.not_eq_false] at hsame
    unfold Request.matched at hsame
    rw [Bool.and_eq_true, Bool.and_eq_true, decide_eq_true_eq] at hsame
    exact hsame.1.2

theorem Sound.again (h : Sound codec g) (hc : g.calls n = some c) {s : Session δ}
    (hbusy : s.busy = true) (hkey : s.key = (g.sessions c.ref).key) (hnone : s.responseId = none)
    (httpMode : Bool) : Sound codec (g.again codec n c s httpMode) :=
  h.advance hc hbusy hkey (.forget hnone) rfl rfl fun _ =>
    ⟨payload_continues hinj (.forget hnone) c.request, fun hne => absurd hnone hne⟩

theorem Sound.failed (h : Sound codec g) (hc : g.calls n = some c)
    (missing transport cancelled : Bool) :
    Sound codec (g.failed codec n c missing transport cancelled) := by
  unfold Gateway.failed
  dsimp only
  split
  · exact h.finishing hc false
  split
  · exact Sound.again (s := { (g.sessions c.ref).forget with id := g.nextId }) hinj
      (h.nextId (g.nextId + 1)) hc (h.entry n c hc).2 rfl rfl c.httpMode
  split
  · exact Sound.again (s := { (g.sessions c.ref).forget with
      httpUntil := some (g.now + httpPreference)
      parameters := some (c.request.parameters codec) }) hinj h hc (h.entry n c hc).2 rfl rfl true
  · exact h.finishing hc false

end Attempts

theorem Sound.empty : Sound codec ({} : Gateway δ) where
  entry _ _ hc := by cases hc
  alone _ _ _ _ hc := by cases hc
  key _ _ hget := by cases hget
  baseline _ _ hget := by cases hget
  made _ _ hc := by cases hc
  sent _ hx := by cases hx
  ids := List.nodup_nil

variable [DecidableEq δ] {limits : Limits}

theorem Sound.act (hinj : Function.Injective codec.digest) (h : Sound codec g) {turn : Turn}
    {g' : Gateway δ} (hs : g.act limits codec turn = some g') : Sound codec g' := by
  cases turn with
  | tick ms =>
    cases hs
    exact
      { entry := h.entry, alone := h.alone, key := h.key, baseline := h.baseline, made := h.made,
        sent := h.sent, ids := h.ids }
  | acquire n key root victim =>
    obtain ⟨-, hs⟩ := guard_some hs
    obtain ⟨r, -, hs⟩ := bind_some hs
    exact h.acquire hs
  | prepare n =>
    obtain ⟨c, hc, hs⟩ := bind_some hs
    obtain ⟨-, hs⟩ := guard_some hs
    cases hs
    exact h.prepare hinj hc
  | send n =>
    obtain ⟨c, hc, hs⟩ := bind_some hs
    obtain ⟨hp, hs⟩ := guard_some hs
    cases hs
    exact h.send hc hp
  | fallBack n =>
    obtain ⟨c, hc, hs⟩ := bind_some hs
    obtain ⟨⟨-, hp⟩, hs⟩ := guard_some hs
    cases hs
    exact h.fallBack hc (.inr (hp.elim (⟨true, ·⟩) (⟨false, ·⟩)))
  | write n =>
    obtain ⟨c, hc, hs⟩ := bind_some hs
    obtain ⟨hp, hs⟩ := guard_some hs
    cases hs
    have hown := h.made n c hc (.inr (hp.elim (⟨true, ·⟩) (⟨false, ·⟩)))
    exact h.setCall hc rfl rfl fun _ => hown
  | complete n id output =>
    obtain ⟨c, hc, hs⟩ := bind_some hs
    split at hs
    · rename_i http hp
      obtain ⟨g'', hresp, hs⟩ := bind_some hs
      cases hs
      have hmade : c.Made := .inr ⟨http, hp⟩
      obtain ⟨hcontinues, -⟩ := h.made n c hc hmade
      obtain ⟨hsound, input, heff, rfl⟩ := h.respond hresp
      refine hsound.succeed hc hmade fun id' output' hcompletion => ?_
      cases http with
      | true => cases hcompletion
      | false =>
        cases hcompletion
        exact ⟨_, List.mem_cons_self, rfl, hcontinues.1, rfl,
          effective_canonical h.ids hcontinues heff⟩
    · cases hs
  | undecodable n =>
    obtain ⟨c, hc, hs⟩ := bind_some hs
    obtain ⟨-, hs⟩ := guard_some hs
    cases hs
    exact h.finishing hc false
  | failed n missing transport cancelled =>
    obtain ⟨c, hc, hs⟩ := bind_some hs
    obtain ⟨-, hs⟩ := guard_some hs
    cases hs
    exact h.failed hinj hc missing transport cancelled
  | finish n =>
    obtain ⟨c, hc, hs⟩ := bind_some hs
    split at hs
    · cases hs
      exact h.finish hc _
    · cases hs
  | expire ref =>
    cases hs
    exact h.expire ref

end Gateway

/-! ## Runs -/

section Runs

variable [DecidableEq δ] {limits : Limits}

/-- In every run, what was sent stands for the full input of its request, with the response named by
its id alone, and a session in use stays the entry of one request. -/
theorem context_continued (hinj : Function.Injective codec.digest) {turns : List Turn}
    {g : Gateway δ} (h : Reach (gatewaySystem limits codec) turns g) :
    (∀ x ∈ g.sent, Continues codec g.provider x.request x.payload) ∧
      (g.provider.map (·.id)).Nodup ∧ InUse g := by
  have hsound : g.Sound codec := by
    refine h.invariant (Gateway.Sound codec) ?_ ?_
    · rintro _ rfl
      exact .empty
    · intro g turn g' hg hs
      exact hg.act hinj hs
  exact ⟨hsound.sent, hsound.ids, hsound.toInUse⟩

end Runs

/-- Values are their own digests. -/
def plainCodec : Codec Value where
  digest := id
  reencode := some
  asBool v := v = .bool true

def userItem : Value := .object [("role", .string "user")]

def answerItem (logprobs : List (String × Value)) : Value :=
  .object [("content", .array [.object (logprobs ++ [("text", Value.string "OK")])]),
    ("type", .string "message")]

def fullRequest (input : List Value) : Value :=
  .object [("input", .array input), ("model", .string "test-model"), ("stream", .bool true)]

/-- The second request of a session sends one item of three. -/
theorem context_continued_second : ∃ g : Gateway Value,
    (∀ x ∈ g.sent, Continues plainCodec g.provider x.request x.payload) ∧ InUse g ∧
      g.sent.map (fun x => (x.payload.previous, x.payload.input)) =
        [(some 7, [userItem]), (none, [userItem])] := by
  let limits : Limits := { idle := 900000, maxEntries := 1 }
  let turns : List Turn :=
    [.acquire 0 4 (fullRequest [userItem]) 0, .prepare 0, .send 0,
      .complete 0 7 [answerItem [("logprobs", .null)]], .finish 0,
      .acquire 1 4 (fullRequest [userItem, answerItem [], userItem]) 0, .prepare 1, .send 1]
  have hrun : (turns.foldlM (Gateway.act limits plainCodec) {}).map
      (fun g => g.sent.map fun x => (x.payload.previous, x.payload.input)) =
        some [(some 7, [userItem]), (none, [userItem])] := by decide
  obtain ⟨g, hg, hsent⟩ := Option.map_eq_some_iff.mp hrun
  have hreach := (Reach.init (S := gatewaySystem limits plainCodec) rfl).foldlM
    (fun _ _ _ hstep => hstep) turns hg
  obtain ⟨hcontinues, -, hinUse⟩ := context_continued Function.injective_id hreach
  exact ⟨g, hcontinues, hinUse, hsent⟩

end ModelGateway
end PiCloud
