import Embr.Lib.Bytes
import Embr.Lib.Expiring
import Mathlib.Data.List.AList
import Mathlib.Data.List.Induction

/-!
# The store of the tracker

`tracker/token_store.cpp`. The clock is an argument of each operation that
reads it. Durations are 64-bit counts of nanoseconds, and a TTL is given in
minutes.
-/

open Octets Expiring
namespace Embr.Tracker

abbrev Token := Bytes

abbrev TimePoint := Fin (2 ^ 63)

structure Record where
  senderIp : Bytes
  senderPort : UInt16
  registeredAt : TimePoint
  deriving DecidableEq

def int64 (x : ℤ) : ℤ := x.bmod (2 ^ 64)

/-- A number of minutes as a count of nanoseconds. -/
def nanoseconds (minutes : ℤ) : ℤ := int64 (minutes * 60000000000)

structure TokenStore where
  tokenStore : AList fun _ : Token => Record
  ttl : ℤ

namespace TokenStore

def new (ttl : ℤ) : TokenStore := ⟨∅, ttl⟩

def expired (s : TokenStore) (now : TimePoint) (record : Record) : Bool :=
  nanoseconds s.ttl < int64 ((now.val : ℤ) - record.registeredAt.val)

def expiredTokens (s : TokenStore) (now : TimePoint) : List Token :=
  (s.tokenStore.entries.filter fun entry => s.expired now entry.2).map Sigma.fst

def erase (s : TokenStore) (tokens : List Token) : TokenStore :=
  { s with tokenStore := tokens.foldl (fun m t => m.erase t) s.tokenStore }

def upsert (s : TokenStore) (token : Token) (record : Record) (now : TimePoint) : TokenStore :=
  { s with tokenStore := s.tokenStore.insert token { record with registeredAt := now } }

def resolve (s : TokenStore) (token : Token) (now : TimePoint) : Option Record × TokenStore :=
  -- lazy evict: sweep on each resolve call
  let s := s.erase (s.expiredTokens now)
  (s.tokenStore.lookup token, s)

def remove (s : TokenStore) (token : Token) : Bool × TokenStore :=
  ((s.tokenStore.lookup token).isSome, { s with tokenStore := s.tokenStore.erase token })

def sweepExpired (s : TokenStore) (now : TimePoint) : ℕ × TokenStore :=
  let tokens := s.expiredTokens now
  (tokens.length, s.erase tokens)

end TokenStore

inductive StoreOp
  | upsert (token : Token) (record : Record)
  | resolve (token : Token)
  | remove (token : Token)
  | sweepExpired

/-- A call and its reading of the clock. An `upsert` reads it before it takes the lock. -/
structure Call where
  now : TimePoint
  op : StoreOp

/-- The calls that compare the clock with what is stored. -/
def Call.Looks (c : Call) : Prop :=
  match c.op with
  | .resolve _ => True
  | .sweepExpired => True
  | _ => False

/-- No call that looks at the clock finds it behind an earlier one. -/
def Chronological (calls : List Call) : Prop :=
  calls.Pairwise fun c d => c.Looks → d.Looks → c.now ≤ d.now

theorem chronological_pair {c d : Call} (h : ¬ c.Looks) : Chronological [c, d] := by
  simp [Chronological, h]

namespace TokenStore

def step (s : TokenStore) (c : Call) : TokenStore :=
  match c.op with
  | .upsert token record => s.upsert token record c.now
  | .resolve token => (s.resolve token c.now).2
  | .remove token => (s.remove token).2
  | .sweepExpired => (s.sweepExpired c.now).2

def run (s : TokenStore) (calls : List Call) : TokenStore := calls.foldl step s

/-- What the `resolve` calls for a token answer. -/
def resolutions (token : Token) : TokenStore → List Call → List (Option Record)
  | _, [] => []
  | s, c :: calls =>
    match c.op with
    | .resolve t =>
      if t = token then (s.resolve t c.now).1 :: resolutions token (s.step c) calls
      else resolutions token (s.step c) calls
    | _ => resolutions token (s.step c) calls

end TokenStore

def Call.Changes (token : Token) (c : Call) : Prop :=
  match c.op with
  | .upsert t _ => t = token
  | .remove t => t = token
  | _ => False

/-- The record of the latest `upsert` of the token, if no `remove` of it has followed. -/
def Latest (token : Token) (calls : List Call) (r : Record) : Prop :=
  ∃ before now record after, calls = before ++ ⟨now, .upsert token record⟩ :: after ∧
    r = { record with registeredAt := now } ∧ ∀ c ∈ after, ¬ c.Changes token

/-- Neither a sweep nor a resolve of another token. -/
def Call.matters (token : Token) (c : Call) : Bool :=
  match c.op with
  | .resolve t => decide (t = token)
  | .sweepExpired => false
  | _ => true

def apply (a : Token → Option Record) (c : Call) : Token → Option Record :=
  match c.op with
  | .upsert token record => Function.update a token (some { record with registeredAt := c.now })
  | .remove token => Function.update a token none
  | _ => a

def standing (calls : List Call) : Token → Option Record := calls.foldl apply fun _ => none

def Stale (limit : ℤ) (now : TimePoint) (r : Record) : Prop :=
  limit < (now.val : ℤ) - r.registeredAt.val

theorem stale_aging (limit : ℤ) : Aging (Stale limit) := by
  intro r t t' hle hstale
  have hval : t.val ≤ t'.val := hle
  rw [Stale] at hstale ⊢
  omega

variable {ttl limit : ℤ} {s : TokenStore} {token t : Token} {now : TimePoint} {r : Record}
  {c : Call} {calls calls' : List Call} {a : Token → Option Record}

theorem int64_eq {x : ℤ} (hl : -2 ^ 63 ≤ x) (hu : x < 2 ^ 63) : int64 x = x := by
  rw [int64, Int.bmod_eq_of_le] <;> omega

namespace TokenStore

def view (s : TokenStore) (token : Token) : Option Record := s.tokenStore.lookup token

/-- The TTL in nanoseconds fits in 63 bits. -/
def Fits (ttl : ℤ) : Prop := (ttl * 60000000000).natAbs < 2 ^ 63

theorem nanoseconds_eq (hfits : Fits ttl) : nanoseconds ttl = ttl * 60000000000 := by
  rw [Fits] at hfits
  exact int64_eq (by omega) (by omega)

theorem expired_iff : s.expired now r = true ↔ Stale (nanoseconds s.ttl) now r := by
  have hnow := now.isLt
  have hreg := r.registeredAt.isLt
  rw [expired, decide_eq_true_iff, int64_eq (by omega) (by omega), Stale]

theorem mem_expiredTokens :
    token ∈ s.expiredTokens now ↔ ∃ r, s.view token = some r ∧ s.expired now r = true := by
  rw [expiredTokens, List.mem_map]
  constructor
  · rintro ⟨⟨_, r⟩, hmem, rfl⟩
    obtain ⟨hentry, hexp⟩ := List.mem_filter.mp hmem
    exact ⟨r, AList.mem_lookup_iff.mpr hentry, hexp⟩
  · rintro ⟨r, hview, hexp⟩
    exact ⟨⟨token, r⟩, List.mem_filter.mpr ⟨AList.mem_lookup_iff.mp hview, hexp⟩, rfl⟩

theorem view_erase (s : TokenStore) (tokens : List Token) (t : Token) :
    (s.erase tokens).view t = if t ∈ tokens then none else s.view t := by
  have hfold : ∀ (m : AList fun _ : Token => Record), (tokens.foldl (fun m t => m.erase t) m).lookup t =
      if t ∈ tokens then none else m.lookup t := by
    induction tokens with
    | nil => simp
    | cons u tokens ih =>
      intro m
      rw [List.foldl_cons, ih]
      by_cases hu : t = u
      · subst hu
        rw [AList.lookup_erase, ite_self, if_pos List.mem_cons_self]
      · simp [hu, AList.lookup_erase_ne hu]
  exact hfold s.tokenStore

@[simp] theorem view_new (ttl : ℤ) : (new ttl).view = fun _ => none := rfl

@[simp] theorem view_upsert (s : TokenStore) (token : Token) (record : Record) (now : TimePoint) :
    (s.upsert token record now).view =
      Function.update s.view token (some { record with registeredAt := now }) := by
  funext t
  by_cases ht : t = token
  · subst ht
    simp [view, upsert]
  · simp [view, upsert, ht, AList.lookup_insert_ne ht]

@[simp] theorem view_remove (s : TokenStore) (token : Token) :
    (s.remove token).2.view = Function.update s.view token none := by
  funext t
  by_cases ht : t = token
  · subst ht
    simp [view, remove]
  · simp [view, remove, ht, AList.lookup_erase_ne ht]

theorem evict_lags (s : TokenStore) (now : TimePoint) :
    Lags (Stale (nanoseconds s.ttl)) now (s.erase (s.expiredTokens now)).view s.view := by
  intro t
  rw [view_erase]
  split_ifs with hmem
  · obtain ⟨r, hview, hexp⟩ := mem_expiredTokens.mp hmem
    exact .inr ⟨rfl, r, hview, expired_iff.mp hexp⟩
  · exact .inl rfl

theorem evict_fresh (s : TokenStore) (now : TimePoint) :
    Fresh (Stale (nanoseconds s.ttl)) now (s.erase (s.expiredTokens now)).view := by
  intro t r hview hstale
  rw [view_erase] at hview
  split_ifs at hview with hmem
  exact hmem (mem_expiredTokens.mpr ⟨r, hview, expired_iff.mpr hstale⟩)

end TokenStore

@[simp] theorem apply_upsert (a : Token → Option Record) (now : TimePoint) (token : Token)
    (record : Record) : apply a ⟨now, .upsert token record⟩ =
      Function.update a token (some { record with registeredAt := now }) := rfl

@[simp] theorem apply_remove (a : Token → Option Record) (now : TimePoint) (token : Token) :
    apply a ⟨now, .remove token⟩ = Function.update a token none := rfl

theorem apply_of_not_changes (h : ¬ c.Changes token) : apply a c token = a token := by
  obtain ⟨now, op⟩ := c
  cases op with
  | upsert t record => exact Function.update_of_ne (Ne.symm h) ..
  | remove t => exact Function.update_of_ne (Ne.symm h) ..
  | resolve t => rfl
  | sweepExpired => rfl

theorem foldl_apply_of_not_changes (h : ∀ c ∈ calls, ¬ c.Changes token) :
    calls.foldl apply a token = a token := by
  induction calls generalizing a with
  | nil => rfl
  | cons c calls ih =>
    rw [List.foldl_cons, ih fun d hd => h d (List.mem_cons_of_mem _ hd)]
    exact apply_of_not_changes (h c List.mem_cons_self)

theorem standing_of_latest (h : Latest token calls r) : standing calls token = some r := by
  obtain ⟨before, now, record, after, rfl, rfl, hafter⟩ := h
  rw [standing, List.foldl_append, List.foldl_cons, foldl_apply_of_not_changes hafter]
  exact Function.update_self ..

theorem standing_iff : standing calls token = some r ↔ Latest token calls r := by
  refine ⟨fun h => ?_, standing_of_latest⟩
  induction calls using List.reverseRecOn with
  | nil => cases h
  | append_singleton calls c ih =>
    rw [standing, List.foldl_append, List.foldl_cons, List.foldl_nil] at h
    by_cases hchange : c.Changes token
    · obtain ⟨now, op⟩ := c
      cases op with
      | upsert t record =>
        cases hchange
        rw [apply_upsert, Function.update_self] at h
        cases h
        exact ⟨calls, now, record, [], rfl, rfl, fun _ hd => nomatch hd⟩
      | remove t =>
        cases hchange
        rw [apply_remove, Function.update_self] at h
        cases h
      | resolve t => exact hchange.elim
      | sweepExpired => exact hchange.elim
    · rw [apply_of_not_changes hchange] at h
      obtain ⟨before, now, record, after, rfl, hr, hafter⟩ := ih h
      refine ⟨before, now, record, after ++ [c], ?_, hr, fun d hd => ?_⟩
      · rw [List.append_assoc, List.cons_append]
      · rcases List.mem_append.mp hd with hd | hd
        · exact hafter d hd
        · rw [List.mem_singleton.mp hd]
          exact hchange

namespace TokenStore

theorem step_ttl (s : TokenStore) (c : Call) : (s.step c).ttl = s.ttl := by
  obtain ⟨now, op⟩ := c
  cases op <;> rfl

/-- For every look still to come, the store lags behind the map that forgets nothing. -/
def Follows (ttl : ℤ) (s : TokenStore) (a : Token → Option Record) (calls : List Call) : Prop :=
  s.ttl = ttl ∧ ∀ c ∈ calls, c.Looks → Lags (Stale (nanoseconds ttl)) c.now s.view a

theorem Follows.step (hchron : Chronological (c :: calls))
    (h : Follows ttl s a (c :: calls)) : Follows ttl (s.step c) (apply a c) calls := by
  obtain ⟨rfl, hlags⟩ := h
  obtain ⟨hfirst, -⟩ := List.pairwise_cons.mp hchron
  refine ⟨step_ttl s c, fun d hd hlook => ?_⟩
  have hd' := hlags d (List.mem_cons_of_mem _ hd) hlook
  obtain ⟨now, op⟩ := c
  have hevict : Call.Looks ⟨now, op⟩ →
      Lags (Stale (nanoseconds s.ttl)) d.now (s.erase (s.expiredTokens now)).view a := by
    intro hlooks
    have hback := (evict_lags s now).trans (hlags _ List.mem_cons_self hlooks)
    exact hback.later (stale_aging _) (hfirst d hd hlooks hlook)
  cases op with
  | upsert t record =>
    change Lags _ _ (s.upsert t record now).view _
    rw [view_upsert]
    exact hd'.update t _
  | remove t =>
    change Lags _ _ (s.remove t).2.view _
    rw [view_remove]
    exact hd'.update t _
  | resolve t => exact hevict trivial
  | sweepExpired => exact hevict trivial

theorem Follows.run {before after : List Call}
    (hchron : Chronological (before ++ after)) (h : Follows ttl s a (before ++ after)) :
    Follows ttl (s.run before) (before.foldl apply a) after := by
  induction before generalizing s a with
  | nil => exact h
  | cons c before ih => exact ih (List.pairwise_cons.mp hchron).2 (h.step hchron)

theorem Follows.new (ttl : ℤ) (calls : List Call) :
    Follows ttl (.new ttl) (fun _ => none) calls := ⟨rfl, fun _ _ _ => .refl _⟩

theorem Follows.resolve (h : Follows ttl s a (⟨now, .resolve token⟩ :: calls)) :
    (s.resolve token now).1 = some r ↔ a token = some r ∧ ¬ Stale (nanoseconds ttl) now r := by
  obtain ⟨rfl, hlags⟩ := h
  have hback := (evict_lags s now).trans (hlags _ List.mem_cons_self trivial)
  exact hback.look (evict_fresh s now)

theorem run_resolve (hchron : Chronological (calls ++ [⟨now, .resolve token⟩])) :
    (((new ttl).run calls).resolve token now).1 = some r ↔
      Latest token calls r ∧ ¬ Stale (nanoseconds ttl) now r := by
  rw [((Follows.new ttl _).run hchron).resolve, ← standing_iff]
  rfl

theorem run_resolve_latest (hchron : Chronological (calls ++ [⟨now, .resolve token⟩]))
    (h : Latest token calls r) : (((new ttl).run calls).resolve token now).1 =
      if (now.val : ℤ) - r.registeredAt.val ≤ nanoseconds ttl then some r else none := by
  split_ifs with hlive
  · exact (run_resolve hchron).mpr ⟨h, not_lt.mpr hlive⟩
  · rw [Option.eq_none_iff_forall_ne_some]
    intro r' hr'
    obtain ⟨hlatest, hfresh⟩ := (run_resolve hchron).mp hr'
    have hsame : r = r' := Option.some.inj ((standing_of_latest h).symm.trans
      (standing_of_latest hlatest))
    subst hsame
    exact hfresh (not_le.mp hlive)

/-- What the store may lose in a call that looks at the clock. -/
def Evicts (limit : ℤ) (s s' : TokenStore) (now : TimePoint) : Prop :=
  (∀ t r, s'.view t = some r → s.view t = some r) ∧
    ∀ t r, s.view t = some r → s'.view t = some r ∨ s'.view t = none ∧ Stale limit now r

theorem Evicts.of_lags {s' : TokenStore} (h : Lags (Stale limit) now s'.view s.view) :
    Evicts limit s s' now := by
  refine ⟨fun t r hr => ?_, fun t r hr => ?_⟩
  · rcases h t with ht | ⟨ht, -⟩
    · exact ht ▸ hr
    · rw [hr] at ht
      cases ht
  · rcases h t with ht | ⟨ht, r', hr', hstale⟩
    · exact .inl (ht.trans hr)
    · rw [hr] at hr'
      cases hr'
      exact .inr ⟨ht, hstale⟩

theorem step_evicts (hlooks : c.Looks) :
    Evicts (nanoseconds s.ttl) s (s.step c) c.now := by
  obtain ⟨now, op⟩ := c
  cases op with
  | upsert t record => exact hlooks.elim
  | remove t => exact hlooks.elim
  | resolve t => exact .of_lags (evict_lags s now)
  | sweepExpired => exact .of_lags (evict_lags s now)

instance (limit : ℤ) (now : TimePoint) (r : Record) : Decidable (Stale limit now r) :=
  inferInstanceAs (Decidable (_ < _))

/-- What the `resolve` calls for a token answer on the map that forgets nothing. -/
def expected (limit : ℤ) (token : Token) : (Token → Option Record) → List Call → List (Option Record)
  | _, [] => []
  | a, c :: calls =>
    match c.op with
    | .resolve t =>
      if t = token then
        (a t).filter (fun r => ¬ Stale limit c.now r) :: expected limit token (apply a c) calls
      else expected limit token (apply a c) calls
    | _ => expected limit token (apply a c) calls

theorem resolutions_eq (hchron : Chronological calls) (h : Follows ttl s a calls) :
    s.resolutions token calls = expected (nanoseconds ttl) token a calls := by
  induction calls generalizing s a with
  | nil => rfl
  | cons c calls ih =>
    have hrest := ih (List.pairwise_cons.mp hchron).2 (h.step hchron)
    obtain ⟨now, op⟩ := c
    cases op with
    | upsert t record => exact hrest
    | remove t => exact hrest
    | sweepExpired => exact hrest
    | resolve t =>
      rw [resolutions, expected, hrest]
      have hanswer : (s.resolve t now).1 = (a t).filter fun r => ¬ Stale (nanoseconds ttl) now r := by
        ext r
        rw [h.resolve]
        simp
      simp only [hanswer]

theorem expected_filter (limit : ℤ) (token : Token) (a : Token → Option Record)
    (calls : List Call) :
    expected limit token a (calls.filter (Call.matters token)) = expected limit token a calls := by
  induction calls generalizing a with
  | nil => rfl
  | cons c calls ih =>
    obtain ⟨now, op⟩ := c
    cases op with
    | upsert t record => exact ih _
    | remove t => exact ih _
    | sweepExpired => exact ih _
    | resolve t =>
      by_cases ht : t = token
      · have hkeep : Call.matters token ⟨now, .resolve t⟩ = true := decide_eq_true ht
        rw [List.filter_cons_of_pos hkeep, expected, expected, ih]
      · have hdrop : ¬ Call.matters token ⟨now, .resolve t⟩ = true := by
          simp [Call.matters, ht]
        rw [List.filter_cons_of_neg hdrop, ih]
        simp only [expected, if_neg ht]
        rfl

theorem resolutions_congr (hchron : Chronological calls)
    (hchron' : Chronological calls')
    (h : calls.filter (Call.matters token) = calls'.filter (Call.matters token)) :
    (new ttl).resolutions token calls = (new ttl).resolutions token calls' := by
  rw [resolutions_eq hchron (.new ttl calls), resolutions_eq hchron' (.new ttl calls'),
    ← expected_filter, h, expected_filter]

/-- The store is an expiring map: a resolve answers the record of the latest
`upsert` while it is no older than the TTL, only such records are evicted, and
no resolve can tell how often the store was swept or asked for other tokens. -/
theorem store_refines (ttl : ℤ) (hfits : Fits ttl) :
    (∀ calls token now, Chronological (calls ++ [⟨now, .resolve token⟩]) → ∀ r,
      (((new ttl).run calls).resolve token now).1 = some r ↔
        Latest token calls r ∧ (now.val : ℤ) - r.registeredAt.val ≤ ttl * 60000000000) ∧
    (∀ (s : TokenStore) (c : Call), s.ttl = ttl → c.Looks →
      Evicts (ttl * 60000000000) s (s.step c) c.now) ∧
    ∀ token calls calls', Chronological calls → Chronological calls' →
      calls.filter (Call.matters token) = calls'.filter (Call.matters token) →
        (new ttl).resolutions token calls = (new ttl).resolutions token calls' := by
  refine ⟨fun calls token now hchron r => ?_, ?_, ?_⟩
  · rw [run_resolve hchron, nanoseconds_eq hfits, Stale, not_lt]
  · intro s c hs hlooks
    rw [← nanoseconds_eq hfits, ← hs]
    exact step_evicts hlooks
  · exact fun token calls calls' hchron hchron' h => resolutions_congr hchron hchron' h

/-- With the default TTL of ten minutes a record is found after exactly ten minutes. -/
theorem store_refines_tenMinutes :
    (((new 10).run [⟨0, .upsert [97] ⟨[49], 80, 0⟩⟩]).resolve [97] 600000000000).1 =
      some ⟨[49], 80, 0⟩ := by
  have hfits : Fits 10 := (by decide : (10 * 60000000000 : ℤ).natAbs < 2 ^ 63)
  have hchron : Chronological
      ([⟨0, .upsert [97] ⟨[49], 80, 0⟩⟩] ++ [⟨600000000000, .resolve [97]⟩]) := by
    simp [Chronological, Call.Looks]
  refine ((store_refines 10 hfits).1 _ _ _ hchron _).mpr ⟨?_, by decide⟩
  exact ⟨[], 0, ⟨[49], 80, 0⟩, [], rfl, rfl, fun _ hc => nomatch hc⟩

end TokenStore

end Embr.Tracker
