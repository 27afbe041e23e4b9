import Mathlib

/-!
# The workspace's mutation lease

Mirrors `_Lease`, `_check_lease`, `acquire_lease` and `release_lease` of
adapters/workspace/restricted.py. Every call runs under the lease lock, so a
run is a list of calls. A call carries its clock readings and the token it
would draw: `is_expired` is asked at `now`, a new lease is stamped at
`acquired`.

`alive` is what the lease is for, read off the history alone: the leases
granted and not given back. It knows nothing of the one slot the code keeps.

**Result.** `lease_protocol`: with a clock that never goes back and tokens that
never repeat, at most one lease that is alive has not expired, and it is the one
in the slot; a mutation is permitted for its token alone, so never for the
tokens of two owners; and no other token gives it back.
-/
namespace Northstack

/-- `_Lease` (restricted.py:289-303) -/
structure Lease where
  token : String
  owner : String
  acquiredAt : ℚ
  timeout : ℚ
  deriving DecidableEq

/-- `_Lease.is_expired`, a timeout of zero being none. -/
def Lease.isExpired (l : Lease) (now : ℚ) : Bool :=
  if l.timeout ≤ 0 then false else decide (l.timeout < now - l.acquiredAt)

/-- How `acquire_lease` ends: with a new lease, with the caller's live one, or
locked out. -/
inductive Acquired where
  | new (l : Lease)
  | live (token : String)
  | locked
  deriving DecidableEq

/-- What `acquire_lease` returns. -/
def Acquired.token? : Acquired → Option String
  | .new l => some l.token
  | .live token => some token
  | .locked => none

/-- `RestrictedWorkspace.acquire_lease` (restricted.py:960-976); `timeout` is the
configuration's. -/
def acquireLease (timeout : ℚ) (lease : Option Lease) (owner : String) (now acquired : ℚ)
    (fresh : String) : Option Lease × Acquired :=
  let l : Lease := { token := fresh, owner := owner, acquiredAt := acquired, timeout := timeout }
  match lease with
  | some held =>
    if !held.isExpired now then
      (lease, if held.owner = owner then .live held.token else .locked)
    else (some l, .new l)
  | none => (some l, .new l)

/-- `RestrictedWorkspace.release_lease` (restricted.py:978-982) -/
def releaseLease (lease : Option Lease) (token : String) : Option Lease :=
  match lease with
  | some held => if held.token = token then none else lease
  | none => none

/-- `RestrictedWorkspace._check_lease` (restricted.py:657-667): the lease after
it, and the error. -/
def checkLease (lease : Option Lease) (token : Option String) (now : ℚ) :
    Option Lease × Option String :=
  match token with
  | none => (lease, some "Mutation requires a valid lease token")
  | some token =>
    match lease with
    | none => (none, some "No lease held")
    | some held =>
      if held.isExpired now then (none, some "Lease has expired")
      else (lease, if held.token = token then none else some "Invalid lease token")

/-- `_check_lease` permits the mutation. -/
def permits (lease : Option Lease) (token : Option String) (now : ℚ) : Bool :=
  (checkLease lease token now).2 = none

/-! ## Runs -/

inductive LeaseCall where
  | acquire (owner : String) (now acquired : ℚ) (fresh : String)
  | release (token : String)
  | check (token : Option String) (now : ℚ)

/-- The clock readings of a call, in order. -/
def LeaseCall.readings : LeaseCall → List ℚ
  | .acquire _ now acquired _ => [now, acquired]
  | .release _ => []
  | .check _ now => [now]

inductive LeaseEvent where
  | acquired (owner : String) (answer : Acquired)
  | released (token : String)
  | checked (token : Option String) (error : Option String)

def leaseStep (timeout : ℚ) (lease : Option Lease) : LeaseCall → Option Lease × LeaseEvent
  | .acquire owner now acquired fresh =>
    let r := acquireLease timeout lease owner now acquired fresh
    (r.1, .acquired owner r.2)
  | .release token => (releaseLease lease token, .released token)
  | .check token now => ((checkLease lease token now).1, .checked token (checkLease lease token now).2)

/-- The slot after some calls on a new workspace, and what happened. -/
def leaseRun (timeout : ℚ) (calls : List LeaseCall) : Option Lease × List LeaseEvent :=
  calls.foldl (fun x c => ((leaseStep timeout x.1 c).1, x.2 ++ [(leaseStep timeout x.1 c).2]))
    (none, [])

/-- The clock readings of a run, in order. -/
def readings (calls : List LeaseCall) : List ℚ := calls.flatMap LeaseCall.readings

/-- The leases made so far, oldest first. -/
def made (h : List LeaseEvent) : List Lease := h.filterMap fun
  | .acquired _ (.new l) => some l
  | _ => none

def survive (ls : List Lease) : LeaseEvent → List Lease
  | .acquired _ (.new l) => ls ++ [l]
  | .released token => ls.filter (·.token ≠ token)
  | _ => ls

/-- The leases granted and not given back since, oldest first. -/
def alive (h : List LeaseEvent) : List Lease := h.foldl survive []

/-- `acquire_lease` returned the token to the owner. -/
def Obtained (owner token : String) (h : List LeaseEvent) : Prop :=
  ∃ answer, .acquired owner answer ∈ h ∧ answer.token? = some token

theorem alive_snoc (h : List LeaseEvent) (e : LeaseEvent) :
    alive (h ++ [e]) = survive (alive h) e := by
  simp [alive]

theorem leaseRun_concat (timeout : ℚ) (calls : List LeaseCall) (c : LeaseCall) :
    leaseRun timeout (calls ++ [c]) =
      ((leaseStep timeout (leaseRun timeout calls).1 c).1,
        (leaseRun timeout calls).2 ++ [(leaseStep timeout (leaseRun timeout calls).1 c).2]) := by
  simp [leaseRun]

/-- What has expired stays expired. -/
theorem Lease.expired_mono {l : Lease} {t t' : ℚ} (h : l.isExpired t = true) (ht : t ≤ t') :
    l.isExpired t' = true := by
  unfold Lease.isExpired at h ⊢
  split at h
  · cases h
  · rename_i hpos
    rw [if_neg hpos]
    simp only [decide_eq_true_eq] at h ⊢
    linarith

theorem permits_iff {lease : Option Lease} {token : String} {now : ℚ} :
    permits lease (some token) now = true ↔
      ∃ l, lease = some l ∧ l.isExpired now = false ∧ l.token = token := by
  unfold permits checkLease
  cases lease with
  | none => simp
  | some l => cases hl : l.isExpired now <;> simp [hl]

/-- A check only empties the slot. -/
theorem checkLease_slot {lease : Option Lease} {token : Option String} {now : ℚ} {l : Lease}
    (h : (checkLease lease token now).1 = some l) : lease = some l := by
  unfold checkLease at h
  split at h
  · exact h
  · split at h
    · cases h
    · split at h
      · cases h
      · exact h

/-- A release only empties the slot, of the lease it names. -/
theorem releaseLease_slot {lease : Option Lease} {token : String} {l : Lease} :
    releaseLease lease token = some l ↔ lease = some l ∧ l.token ≠ token := by
  unfold releaseLease
  cases lease with
  | none => simp
  | some held =>
    by_cases ht : held.token = token
    · simp only [ht, if_true, reduceCtorEq, Option.some.injEq, false_iff, not_and, not_not]
      rintro rfl
      exact ht
    · simp only [ht, if_false, Option.some.injEq]
      constructor
      · rintro rfl
        exact ⟨rfl, ht⟩
      · exact fun h => h.1

/-- The three ways an `acquire_lease` ends. -/
theorem acquireLease_cases (timeout : ℚ) (lease : Option Lease) (owner : String)
    (now acquired : ℚ) (fresh : String) :
    (∃ l, lease = some l ∧ l.isExpired now = false ∧
      (acquireLease timeout lease owner now acquired fresh).1 = some l ∧
      ((l.owner = owner ∧ (acquireLease timeout lease owner now acquired fresh).2 = .live l.token) ∨
        (l.owner ≠ owner ∧ (acquireLease timeout lease owner now acquired fresh).2 = .locked))) ∨
    ((∀ l, lease = some l → l.isExpired now = true) ∧
      acquireLease timeout lease owner now acquired fresh =
        (some ⟨fresh, owner, acquired, timeout⟩, .new ⟨fresh, owner, acquired, timeout⟩)) := by
  unfold acquireLease
  cases lease with
  | none => exact .inr ⟨by simp, rfl⟩
  | some l =>
    cases hl : l.isExpired now with
    | true => exact .inr ⟨by simpa using hl, by simp [hl]⟩
    | false =>
      refine .inl ⟨l, rfl, hl, by simp [hl], ?_⟩
      by_cases ho : l.owner = owner
      · exact .inl ⟨ho, by simp [hl, ho]⟩
      · exact .inr ⟨ho, by simp [hl, ho]⟩

/-! ## The invariant -/

/-- What the slot says, against the history, from the time `clock` on. -/
structure LeaseInv (clock : ℚ) (lease : Option Lease) (h : List LeaseEvent) : Prop where
  /-- A lease that is alive has expired, unless it is in the slot. -/
  current : ∀ l ∈ alive h, lease = some l ∨ l.isExpired clock = true
  slot : ∀ l, lease = some l → l ∈ alive h
  alive_made : ∀ l ∈ alive h, l ∈ made h
  obtained : ∀ owner token, Obtained owner token h →
    ∃ l ∈ made h, l.owner = owner ∧ l.token = token

theorem made_snoc (h : List LeaseEvent) (e : LeaseEvent) :
    made (h ++ [e]) = made h ++ made [e] := List.filterMap_append

theorem Obtained.snoc {owner token : String} {h : List LeaseEvent} {e : LeaseEvent}
    (ho : Obtained owner token (h ++ [e])) : Obtained owner token h ∨
      ∃ answer, e = .acquired owner answer ∧ answer.token? = some token := by
  obtain ⟨answer, hm, ht⟩ := ho
  rcases List.mem_append.mp hm with hm | hm
  · exact .inl ⟨answer, hm, ht⟩
  · exact .inr ⟨answer, (List.mem_singleton.mp hm).symm, ht⟩

theorem LeaseInv.mono {clock clock' : ℚ} {lease : Option Lease} {h : List LeaseEvent}
    (hi : LeaseInv clock lease h) (hle : clock ≤ clock') : LeaseInv clock' lease h :=
  { hi with
    current := fun l hl => (hi.current l hl).imp_right fun he => Lease.expired_mono he hle }

section Step

variable {clock : ℚ} {lease : Option Lease} {h : List LeaseEvent}

theorem LeaseInv.acquire (hi : LeaseInv clock lease h) (timeout : ℚ) (owner : String)
    (acquired : ℚ) (fresh : String) :
    LeaseInv clock (acquireLease timeout lease owner clock acquired fresh).1
      (h ++ [.acquired owner (acquireLease timeout lease owner clock acquired fresh).2]) := by
  rcases acquireLease_cases timeout lease owner clock acquired fresh with
    ⟨l, rfl, hl, hs, ha⟩ | ⟨hexp, heq⟩
  · rw [hs]
    have hkept : ∀ answer, (∀ l, answer ≠ .new l) →
        alive (h ++ [.acquired owner answer]) = alive h ∧
          made (h ++ [.acquired owner answer]) = made h := by
      intro answer hne
      cases answer with
      | new l => exact absurd rfl (hne l)
      | live token => exact ⟨by rw [alive_snoc]; rfl, by rw [made_snoc]; exact List.append_nil _⟩
      | locked => exact ⟨by rw [alive_snoc]; rfl, by rw [made_snoc]; exact List.append_nil _⟩
    have hnew : ∀ l', (acquireLease timeout (some l) owner clock acquired fresh).2 ≠ .new l' := by
      intro l'
      rcases ha with ⟨-, ha⟩ | ⟨-, ha⟩ <;> simp [ha]
    obtain ⟨halive, hmade⟩ := hkept _ hnew
    refine ⟨?_, ?_, ?_, fun o token ho => ?_⟩
    · rw [halive]
      exact hi.current
    · rw [halive]
      exact hi.slot
    · rw [halive, hmade]
      exact hi.alive_made
    · rw [hmade]
      rcases ho.snoc with ho | ⟨answer, he, ht⟩
      · exact hi.obtained o token ho
      · cases he
        rcases ha with ⟨hown, ha⟩ | ⟨-, ha⟩
        · rw [ha] at ht
          cases ht
          exact ⟨l, hi.alive_made l (hi.slot l rfl), hown, rfl⟩
        · simp [ha, Acquired.token?] at ht
  · rw [heq]
    have halive : ∀ l, alive (h ++ [.acquired owner (.new l)]) = alive h ++ [l] := by
      intro l
      rw [alive_snoc]
      rfl
    have hmade : ∀ l, made (h ++ [.acquired owner (.new l)]) = made h ++ [l] := fun l => by
      rw [made_snoc]
      rfl
    refine ⟨fun l hl => ?_, fun l hl => ?_, fun l hl => ?_, fun o token ho => ?_⟩
    · rw [halive] at hl
      rcases List.mem_append.mp hl with hl | hl
      · rcases hi.current l hl with hs | he
        · exact .inr (hexp l hs)
        · exact .inr he
      · exact .inl (congrArg some (List.mem_singleton.mp hl).symm)
    · cases hl
      rw [halive]
      exact List.mem_append_right _ List.mem_cons_self
    · rw [halive] at hl
      rw [hmade]
      rcases List.mem_append.mp hl with hl | hl
      · exact List.mem_append_left _ (hi.alive_made l hl)
      · exact List.mem_append_right _ hl
    · rw [hmade]
      rcases ho.snoc with ho | ⟨answer, he, ht⟩
      · obtain ⟨l, hl, hown⟩ := hi.obtained o token ho
        exact ⟨l, List.mem_append_left _ hl, hown⟩
      · cases he
        cases ht
        exact ⟨_, List.mem_append_right _ List.mem_cons_self, rfl, rfl⟩

theorem LeaseInv.release (hi : LeaseInv clock lease h) (token : String) :
    LeaseInv clock (releaseLease lease token) (h ++ [.released token]) := by
  have halive : alive (h ++ [.released token]) = (alive h).filter (·.token ≠ token) := by
    rw [alive_snoc]
    rfl
  have hmade : made (h ++ [.released token]) = made h := by
    rw [made_snoc]
    exact List.append_nil _
  refine ⟨fun l hl => ?_, fun l hl => ?_, fun l hl => ?_, fun o t ho => ?_⟩
  · rw [halive, List.mem_filter] at hl
    have hne : l.token ≠ token := by simpa using hl.2
    rcases hi.current l hl.1 with hs | he
    · exact .inl (releaseLease_slot.mpr ⟨hs, hne⟩)
    · exact .inr he
  · obtain ⟨hs, hne⟩ := releaseLease_slot.mp hl
    rw [halive, List.mem_filter]
    exact ⟨hi.slot l hs, by simpa using hne⟩
  · rw [halive, List.mem_filter] at hl
    rw [hmade]
    exact hi.alive_made l hl.1
  · rw [hmade]
    rcases ho.snoc with ho | ⟨answer, he, -⟩
    · exact hi.obtained o t ho
    · cases he

theorem LeaseInv.check (hi : LeaseInv clock lease h) (token error : Option String) :
    LeaseInv clock (checkLease lease token clock).1 (h ++ [.checked token error]) := by
  have halive : alive (h ++ [.checked token error]) = alive h := by
    rw [alive_snoc]
    rfl
  have hmade : made (h ++ [.checked token error]) = made h := by
    rw [made_snoc]
    exact List.append_nil _
  have hslot : (checkLease lease token clock).1 = lease ∨
      (checkLease lease token clock).1 = none ∧ ∀ l, lease = some l → l.isExpired clock = true := by
    unfold checkLease
    split
    · exact .inl rfl
    · split
      · exact .inl rfl
      · split
        · rename_i held he
          exact .inr ⟨rfl, by simpa using he⟩
        · exact .inl rfl
  refine ⟨fun l hl => ?_, fun l hl => ?_, fun l hl => ?_, fun o t ho => ?_⟩
  · rw [halive] at hl
    rcases hslot with hs | ⟨-, hexp⟩
    · rw [hs]
      exact hi.current l hl
    · rcases hi.current l hl with hs | he
      · exact .inr (hexp l hs)
      · exact .inr he
  · rw [halive]
    rcases hslot with hs | ⟨hs, -⟩
    · exact hi.slot l (hs ▸ hl)
    · rw [hs] at hl
      cases hl
  · rw [halive] at hl
    rw [hmade]
    exact hi.alive_made l hl
  · rw [hmade]
    rcases ho.snoc with ho | ⟨answer, he, -⟩
    · exact hi.obtained o t ho
    · cases he

end Step

/-- **Every run keeps the invariant**, at any time the clock can show next. -/
theorem leaseRun_inv (timeout : ℚ) (calls : List LeaseCall) {now : ℚ}
    (hclock : (readings calls ++ [now]).Pairwise (· ≤ ·)) :
    LeaseInv now (leaseRun timeout calls).1 (leaseRun timeout calls).2 := by
  induction calls using List.reverseRecOn generalizing now with
  | nil =>
    refine ⟨?_, ?_, ?_, ?_⟩ <;> simp [leaseRun, alive, Obtained]
  | append_singleton calls c ih =>
    have hsplit : readings (calls ++ [c]) = readings calls ++ c.readings := by
      simp [readings]
    rw [hsplit] at hclock
    rw [leaseRun_concat]
    cases c with
    | acquire owner t acquired fresh =>
      simp only [LeaseCall.readings, List.append_assoc, List.cons_append, List.nil_append] at hclock
      have hpre : readings calls ++ [t] <+: readings calls ++ [t, acquired, now] := by
        rw [List.prefix_append_right_inj]
        exact ⟨[acquired, now], rfl⟩
      have hle : t ≤ now := by
        have htail := (List.pairwise_append.mp hclock).2.1
        simp only [List.pairwise_cons, List.mem_cons, List.not_mem_nil, or_false] at htail
        exact htail.1 now (.inr rfl)
      exact ((ih (hclock.sublist hpre.sublist)).acquire timeout owner acquired fresh).mono hle
    | release token =>
      simp only [LeaseCall.readings, List.append_nil] at hclock
      exact (ih hclock).release token
    | check token t =>
      simp only [LeaseCall.readings, List.append_assoc, List.cons_append, List.nil_append] at hclock
      have hpre : readings calls ++ [t] <+: readings calls ++ [t, now] := by
        rw [List.prefix_append_right_inj]
        exact ⟨[now], rfl⟩
      have hle : t ≤ now := by
        have htail := (List.pairwise_append.mp hclock).2.1
        simp only [List.pairwise_cons, List.mem_cons, List.not_mem_nil, or_false] at htail
        exact htail.1 now rfl
      exact ((ih (hclock.sublist hpre.sublist)).check token _).mono hle

/-- A token that is not the current lease's: of an earlier lease, obtained by
another owner, or made up. -/
inductive NotCurrent (l : Lease) (token : String) (h : List LeaseEvent) : Prop where
  | stale (l' : Lease) (hm : l' ∈ made h) (hne : l' ≠ l) (ht : l'.token = token)
  | foreign (owner : String) (hne : owner ≠ l.owner) (ho : Obtained owner token h)
  | madeUp (hne : token ≠ l.token)

/-- **The lease protocol.** After any calls, with clock readings that never go
back and tokens that never repeat, at every later time: at most one lease that
is alive has not expired; a mutation is permitted for the token of that lease
alone; owners of permitted tokens are the same; and a release with any other
token leaves it in place. -/
theorem lease_protocol (timeout : ℚ) (calls : List LeaseCall) (now : ℚ)
    (hclock : (readings calls ++ [now]).Pairwise (· ≤ ·))
    (hfresh : ((made (leaseRun timeout calls).2).map (·.token)).Nodup) :
    (∀ l ∈ alive (leaseRun timeout calls).2, ∀ l' ∈ alive (leaseRun timeout calls).2,
      l.isExpired now = false → l'.isExpired now = false → l = l') ∧
    (∀ token, permits (leaseRun timeout calls).1 (some token) now = true ↔
      ∃ l ∈ alive (leaseRun timeout calls).2, l.isExpired now = false ∧ l.token = token) ∧
    (∀ owner token owner' token', Obtained owner token (leaseRun timeout calls).2 →
      Obtained owner' token' (leaseRun timeout calls).2 →
      permits (leaseRun timeout calls).1 (some token) now = true →
      permits (leaseRun timeout calls).1 (some token') now = true → owner = owner') ∧
    ∀ l ∈ alive (leaseRun timeout calls).2, l.isExpired now = false →
      ∀ token, NotCurrent l token (leaseRun timeout calls).2 →
        permits (releaseLease (leaseRun timeout calls).1 token) (some l.token) now = true := by
  have hi := leaseRun_inv timeout calls hclock
  generalize leaseRun timeout calls = r at hi hfresh ⊢
  obtain ⟨lease, h⟩ := r
  have hslot : ∀ l ∈ alive h, l.isExpired now = false → lease = some l := by
    intro l hl he
    rcases hi.current l hl with hs | hexp
    · exact hs
    · rw [he] at hexp
      cases hexp
  have hsame : ∀ l ∈ made h, ∀ l' ∈ made h, l.token = l'.token → l = l' := by
    intro l hl l' hl' ht
    exact List.inj_on_of_nodup_map hfresh hl hl' ht
  refine ⟨fun l hl l' hl' he he' => ?_, fun token => ?_, ?_, fun l hl he token hn => ?_⟩
  · have hs := hslot l hl he
    rw [hslot l' hl' he'] at hs
    exact (Option.some.inj hs).symm
  · rw [permits_iff]
    constructor
    · rintro ⟨l, hs, he, ht⟩
      exact ⟨l, hi.slot l hs, he, ht⟩
    · rintro ⟨l, hl, he, ht⟩
      exact ⟨l, hslot l hl he, he, ht⟩
  · intro owner token owner' token' ho ho' hp hp'
    obtain ⟨l, hs, -, ht⟩ := permits_iff.mp hp
    obtain ⟨l', hs', -, ht'⟩ := permits_iff.mp hp'
    obtain rfl : l = l' := Option.some.inj (hs.symm.trans hs')
    have hl := hi.alive_made l (hi.slot l hs)
    obtain ⟨m, hm, hown, hmt⟩ := hi.obtained owner token ho
    obtain ⟨m', hm', hown', hmt'⟩ := hi.obtained owner' token' ho'
    rw [← hown, ← hown', hsame m hm l hl (hmt.trans ht.symm),
      hsame m' hm' l hl (hmt'.trans ht'.symm)]
  · have hs := hslot l hl he
    have hmade := hi.alive_made l hl
    have hne : l.token ≠ token := by
      cases hn with
      | stale l' hm hne ht =>
        intro heq
        exact hne (hsame l' hm l hmade (ht.trans heq.symm))
      | foreign owner hne ho =>
        intro heq
        obtain ⟨m, hm, hown, hmt⟩ := hi.obtained owner token ho
        rw [hsame m hm l hmade (hmt.trans heq.symm)] at hown
        exact hne hown.symm
      | madeUp hne => exact hne.symm
    rw [permits_iff]
    exact ⟨l, releaseLease_slot.mpr ⟨hs, hne⟩, he, rfl⟩

/-- A takeover after expiry, and a late release of the old token. -/
theorem lease_protocol_takeover :
    permits (releaseLease
      (leaseRun 30 [.acquire "a" 0 0 "s", .acquire "b" 31 31 "t", .release "s"]).1 "s")
      (some "t") 40 = true :=
  (lease_protocol 30 [.acquire "a" 0 0 "s", .acquire "b" 31 31 "t", .release "s"] 40
    (by decide +kernel) (by decide +kernel)).2.2.2 ⟨"t", "b", 31, 30⟩ (by decide +kernel)
    (by decide +kernel) "s" (.stale ⟨"s", "a", 0, 30⟩ (by decide +kernel) (by decide +kernel) rfl)

end Northstack
