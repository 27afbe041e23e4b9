import Northstack.Core.Window

/-!
# The request limiter of a model profile

A `ModelLimiter` admits at most `max_concurrency` callers, and `rpm` requests a
minute: a caller takes a slot of the rolling window or sleeps until the oldest
reservation has left it, and checks again. The lock is not held over a sleep, so
the checks of all callers come in any order; a sleeper may wake at any time.

**Results.**
* `limiter_paces`: any `rpm + 1` consecutive reservations span a minute, every
  sleep asked for is positive, and a caller that slept as long as it was asked to
  waits again only where others reserved in between.
* `limiter_concurrency`: no more than `max_concurrency` callers are in.
-/
namespace Northstack

open Runs Window

/-- `gateway.py:1904-1937` -/
structure ModelLimiter where
  maxConcurrency : Nat
  rpm : Nat
  rpm_pos : 0 < rpm
  requestTimes : List ℚ

/-- `ModelLimiter.__init__`, `gateway.py:1917-1937` -/
def ModelLimiter.init (maxConcurrency rpm : Int) : ModelLimiter :=
  { maxConcurrency := (max 1 maxConcurrency).toNat
    rpm := (max 1 rpm).toNat
    rpm_pos := by omega
    requestTimes := [] }

/-- What a check of the window comes to. -/
inductive Checked
  | reserved
  | sleep (seconds : ℚ)
deriving DecidableEq, Repr

/-- One pass of the loop of `_enforce_rpm`, the clock at `now`: what it does under the
lock, and the sleep it asks for. `gateway.py:1946-1954` -/
def ModelLimiter.enforceRpm (l : ModelLimiter) (now : ℚ) : ModelLimiter × Checked :=
  let times := live 60 now l.requestTimes
  if h : times.length < l.rpm then
    ({ l with requestTimes := times ++ [now] }, .reserved)
  else
    let first := times.get ⟨0, Nat.lt_of_lt_of_le l.rpm_pos (Nat.le_of_not_lt h)⟩
    ({ l with requestTimes := times }, .sleep (first + 60 - now))

theorem ModelLimiter.enforceRpm_reserved {l : ModelLimiter} {now : ℚ}
    (h : (live 60 now l.requestTimes).length < l.rpm) :
    l.enforceRpm now = ({ l with requestTimes := live 60 now l.requestTimes ++ [now] },
      .reserved) := by
  unfold ModelLimiter.enforceRpm
  exact dif_pos h

theorem ModelLimiter.enforceRpm_sleep {l : ModelLimiter} {now : ℚ}
    (h : l.rpm ≤ (live 60 now l.requestTimes).length) :
    ∃ first rest, live 60 now l.requestTimes = first :: rest ∧
      l.enforceRpm now =
        ({ l with requestTimes := first :: rest }, .sleep (first + 60 - now)) := by
  have hpos := l.rpm_pos
  cases hts : live 60 now l.requestTimes with
  | nil =>
    rw [hts, List.length_nil] at h
    omega
  | cons first rest =>
    refine ⟨first, rest, rfl, ?_⟩
    unfold ModelLimiter.enforceRpm
    rw [dif_neg (Nat.not_lt.mpr h)]
    simp only [hts, List.get_eq_getElem, List.getElem_cons_zero]

/-! ## The callers -/

/-- Where a caller of `run` or `session` is: outside, with the semaphore and about
to check, asleep since a check at `asked`, or with its slot. `gateway.py:1956-1976` -/
inductive Stage
  | outside
  | entering
  | asleep (asked seconds : ℚ)
  | granted
deriving DecidableEq, Repr

/-- A limiter, its callers, the last clock reading and every reservation made. -/
structure Limited (κ : Type) where
  limiter : ModelLimiter
  permits : Nat
  stage : κ → Stage
  clock : ℚ
  reservations : List (κ × ℚ)

/-- What a caller does: it takes the semaphore, checks the window at a clock reading,
or leaves (its call is over, or it was cancelled). -/
inductive Visit (κ : Type)
  | acquire (c : κ)
  | check (c : κ) (now : ℚ)
  | leave (c : κ)
deriving DecidableEq, Repr

def Visit.caller {κ : Type} : Visit κ → κ
  | .acquire c => c
  | .check c _ => c
  | .leave c => c

section

variable {κ : Type} {s : Limited κ}

def Limited.start (l : ModelLimiter) (clock : ℚ) : Limited κ :=
  { limiter := l
    permits := l.maxConcurrency
    stage := fun _ => .outside
    clock := clock
    reservations := [] }

/-- Every visit is a check or touches nothing but its caller's stage. -/
theorem Visit.check_or (v : Visit κ) :
    (∃ c now, v = .check c now) ∨ ∀ now, v ≠ .check v.caller now := by
  cases v with
  | acquire c => exact .inr fun now h => by cases h
  | check c now => exact .inl ⟨c, now, rfl⟩
  | leave c => exact .inr fun now h => by cases h

/-- The window of a limiter with `rpm` slots holds the last of all reservations, the
others are a minute old, and everyone asleep was asked to sleep for some time. -/
structure Limited.Paced (rpm : Nat) (s : Limited κ) : Prop where
  slots : s.limiter.rpm = rpm
  keeps : Keeps 60 s.clock (s.reservations.map Prod.snd) s.limiter.requestTimes
  room : s.limiter.requestTimes.length ≤ rpm
  spaced : Spaced rpm 60 (s.reservations.map Prod.snd)
  sleeps : ∀ c asked seconds, s.stage c = .asleep asked seconds → 0 < seconds

theorem Limited.Paced.start (l : ModelLimiter) (hl : l.requestTimes = []) (clock : ℚ) :
    (Limited.start l clock : Limited κ).Paced l.rpm := by
  refine ⟨rfl, ?_, ?_, ?_, ?_⟩
  · simp only [Limited.start, hl, List.map_nil]
    exact Keeps.nil
  · simp [Limited.start, hl]
  · intro i a b ha
    simp [Limited.start] at ha
  · intro c asked seconds h
    cases h

/-- The first entry of a window is the reservation that as many others follow as the
window has entries. -/
theorem Limited.Paced.first {rpm : Nat} {first : ℚ} {rest : List ℚ} (hp : s.Paced rpm)
    (hts : s.limiter.requestTimes = first :: rest) :
    ∃ k, s.limiter.requestTimes = (s.reservations.drop k).map Prod.snd ∧
      (s.reservations.map Prod.snd)[k]? = some first := by
  obtain ⟨old, heq, -⟩ := hp.keeps.split
  refine ⟨old.length, ?_, ?_⟩
  · rw [List.map_drop, heq, List.drop_left]
  · rw [heq, hts, List.getElem?_append_right (Nat.le_refl _), Nat.sub_self]
    rfl

/-- Since `s`, only others than `c` have made reservations. -/
def Limited.Since (s : Limited κ) (c : κ) (t : Limited κ) : Prop :=
  ∃ new, t.reservations = s.reservations ++ new ∧ ∀ r ∈ new, r.1 ≠ c

end

section

variable {κ : Type} [DecidableEq κ]

/-- A check by a caller, `now` on the clock. -/
def Limited.check (s : Limited κ) (c : κ) (now : ℚ) : Limited κ :=
  match s.limiter.enforceRpm now with
  | (l, .reserved) =>
    { s with
      limiter := l
      stage := Function.update s.stage c .granted
      clock := now
      reservations := s.reservations ++ [(c, now)] }
  | (l, .sleep seconds) =>
    { s with
      limiter := l
      stage := Function.update s.stage c (.asleep now seconds)
      clock := now }

def Limited.step (s : Limited κ) : Visit κ → Option (Limited κ)
  | .acquire c =>
    if s.stage c = .outside ∧ 0 < s.permits then
      some { s with permits := s.permits - 1, stage := Function.update s.stage c .entering }
    else none
  | .check c now =>
    if s.stage c ≠ .outside ∧ s.stage c ≠ .granted ∧ s.clock ≤ now then some (s.check c now)
    else none
  | .leave c =>
    if s.stage c ≠ .outside then
      some { s with permits := s.permits + 1, stage := Function.update s.stage c .outside }
    else none

/-! ## One visit -/

variable {s t : Limited κ} {c : κ} {now : ℚ}

/-- What a check does: the caller has its slot, the window one more entry, or the
window is full and the caller sleeps until its first entry is a minute old. -/
theorem Limited.check_cases (s : Limited κ) (c : κ) (now : ℚ) :
    ((live 60 now s.limiter.requestTimes).length < s.limiter.rpm ∧
      s.check c now =
        { s with
          limiter :=
            { s.limiter with
              requestTimes := live 60 now s.limiter.requestTimes ++ [now] }
          stage := Function.update s.stage c .granted
          clock := now
          reservations := s.reservations ++ [(c, now)] }) ∨
    ∃ first rest, live 60 now s.limiter.requestTimes = first :: rest ∧
      s.limiter.rpm ≤ (first :: rest).length ∧
      s.check c now =
        { s with
          limiter := { s.limiter with requestTimes := first :: rest }
          stage := Function.update s.stage c (.asleep now (first + 60 - now))
          clock := now } := by
  rcases Nat.lt_or_ge (live 60 now s.limiter.requestTimes).length s.limiter.rpm with h | h
  · left
    refine ⟨h, ?_⟩
    unfold Limited.check
    rw [ModelLimiter.enforceRpm_reserved h]
  · right
    obtain ⟨first, rest, hts, heq⟩ := ModelLimiter.enforceRpm_sleep h
    refine ⟨first, rest, hts, by rwa [hts] at h, ?_⟩
    unfold Limited.check
    rw [heq]

theorem Limited.step_check (h : s.step (.check c now) = some t) :
    s.clock ≤ now ∧ t = s.check c now := by
  simp only [Limited.step] at h
  split at h
  · rename_i hc
    exact ⟨hc.2.2, (Option.some.inj h).symm⟩
  · cases h

/-- Taking the semaphore and leaving touch neither the window nor the other callers. -/
theorem Limited.step_idle {v : Visit κ} (h : s.step v = some t)
    (hv : ∀ now, v ≠ .check v.caller now) :
    t.limiter = s.limiter ∧ t.clock = s.clock ∧ t.reservations = s.reservations ∧
      ∃ g, (g = .entering ∨ g = .outside) ∧ t.stage = Function.update s.stage v.caller g := by
  cases v with
  | acquire c =>
    simp only [Limited.step] at h
    split at h
    · cases h
      exact ⟨rfl, rfl, rfl, .entering, .inl rfl, rfl⟩
    · cases h
  | check c now => exact absurd rfl (hv now)
  | leave c =>
    simp only [Limited.step] at h
    split at h
    · cases h
      exact ⟨rfl, rfl, rfl, .outside, .inr rfl, rfl⟩
    · cases h

/-! ## What every visit preserves -/

/-- A stage of someone else, or the new one. -/
theorem update_asleep {stage : κ → Stage} {c' : κ} {g : Stage} {asked seconds : ℚ}
    (h : Function.update stage c g c' = .asleep asked seconds) :
    g = .asleep asked seconds ∨ stage c' = .asleep asked seconds := by
  by_cases hc : c' = c
  · subst hc
    rw [Function.update_self] at h
    exact .inl h
  · rw [Function.update_of_ne hc] at h
    exact .inr h

theorem Limited.Paced.check {rpm : Nat} (hp : s.Paced rpm) (hle : s.clock ≤ now) :
    (s.check c now).Paced rpm := by
  have hlive := hp.keeps.live hle
  rcases s.check_cases c now with ⟨hlen, heq⟩ | ⟨first, rest, hts, hfull, heq⟩
  · rw [heq]
    rw [hp.slots] at hlen
    refine ⟨hp.slots, ?_, ?_, ?_, ?_⟩
    · rw [List.map_append]
      exact hlive.push
    · rw [List.length_append, List.length_singleton]
      exact hlen
    · rw [List.map_append]
      exact hp.spaced.push hlive hlen
    · intro c' asked seconds h
      rcases update_asleep h with h | h
      · cases h
      · exact hp.sleeps c' asked seconds h
  · rw [heq]
    rw [hts] at hlive
    have hroom : (first :: rest).length ≤ rpm := by
      rw [← hts]
      exact (List.length_filter_le _ _).trans hp.room
    refine ⟨hp.slots, hlive, hroom, hp.spaced, ?_⟩
    intro c' asked seconds h
    rcases update_asleep h with h | h
    · cases h
      have hin : now - first < 60 := (mem_live.mp (hts ▸ List.mem_cons_self)).2
      linarith
    · exact hp.sleeps c' asked seconds h

theorem Limited.Paced.step {rpm : Nat} (v : Visit κ) (hp : s.Paced rpm) (h : s.step v = some t) :
    t.Paced rpm := by
  rcases v.check_or with ⟨c, now, rfl⟩ | hv
  · obtain ⟨hle, rfl⟩ := Limited.step_check h
    exact hp.check hle
  · obtain ⟨hlim, hclock, hres, g, hg, hstage⟩ := Limited.step_idle h hv
    refine ⟨by rw [hlim]; exact hp.slots, by rw [hlim, hclock, hres]; exact hp.keeps,
      by rw [hlim]; exact hp.room, by rw [hres]; exact hp.spaced, ?_⟩
    intro c' asked seconds hs
    rw [hstage] at hs
    rcases update_asleep hs with hs | hs
    · rcases hg with rfl | rfl <;> cases hs
    · exact hp.sleeps c' asked seconds hs

theorem Limited.Since.step {u : Limited κ} (v : Visit κ) (hv : v.caller ≠ c) (hs : s.Since c t)
    (h : t.step v = some u) : s.Since c u := by
  obtain ⟨new, heq, hnew⟩ := hs
  rcases v.check_or with ⟨c', now, rfl⟩ | hidle
  · obtain ⟨-, rfl⟩ := Limited.step_check h
    rcases t.check_cases c' now with ⟨-, hc⟩ | ⟨first, rest, -, -, hc⟩
    · rw [hc]
      refine ⟨new ++ [(c', now)], by rw [heq, List.append_assoc], ?_⟩
      intro r hr
      rcases List.mem_append.mp hr with hr | hr
      · exact hnew r hr
      · rw [List.mem_singleton.mp hr]
        exact hv
    · rw [hc]
      exact ⟨new, heq, hnew⟩
  · obtain ⟨-, -, hres, -⟩ := Limited.step_idle h hidle
    exact ⟨new, hres.trans heq, hnew⟩

/-- Every caller that is in has taken one of the permits. -/
def Limited.Seated (most : Nat) (s : Limited κ) : Prop :=
  ∃ inside : Finset κ, (∀ c, c ∈ inside ↔ s.stage c ≠ .outside) ∧ inside.card + s.permits = most

theorem Limited.Seated.step {most : Nat} (v : Visit κ) (hs : s.Seated most)
    (h : s.step v = some t) : t.Seated most := by
  obtain ⟨inside, hmem, hcard⟩ := hs
  -- a caller that stays in
  have hstays {c : κ} {g : Stage} (hc : s.stage c ≠ .outside) (hg : g ≠ .outside) :
      ∀ c', c' ∈ inside ↔ Function.update s.stage c g c' ≠ .outside := by
    intro c'
    by_cases hcc : c' = c
    · subst hcc
      rw [Function.update_self]
      exact ⟨fun _ => hg, fun _ => (hmem c').mpr hc⟩
    · rw [Function.update_of_ne hcc]
      exact hmem c'
  cases v with
  | acquire c =>
    simp only [Limited.step] at h
    split at h
    · rename_i hc
      cases h
      have hout : c ∉ inside := fun hin => (hmem c).mp hin hc.1
      refine ⟨insert c inside, ?_, ?_⟩
      · intro c'
        by_cases hcc : c' = c
        · subst hcc
          simp
        · simp [Finset.mem_insert, hcc, hmem]
      · rw [Finset.card_insert_of_notMem hout]
        dsimp only
        omega
    · cases h
  | check c now =>
    simp only [Limited.step] at h
    split at h
    · rename_i hc
      cases h
      rcases s.check_cases c now with ⟨-, heq⟩ | ⟨first, rest, -, -, heq⟩
      · rw [heq]
        exact ⟨inside, hstays hc.1 (by simp), hcard⟩
      · rw [heq]
        exact ⟨inside, hstays hc.1 (by simp), hcard⟩
    · cases h
  | leave c =>
    simp only [Limited.step] at h
    split at h
    · rename_i hc
      cases h
      have hin : c ∈ inside := (hmem c).mpr hc
      refine ⟨inside.erase c, ?_, ?_⟩
      · intro c'
        by_cases hcc : c' = c
        · subst hcc
          simp
        · simp [hcc, hmem]
      · have hcard' := Finset.card_erase_add_one hin
        dsimp only
        omega
    · cases h

/-! ## Whole runs -/

theorem paced_of_run {maxConcurrency rpm : Int} {clock : ℚ} {visits : List (Visit κ)}
    (hrun : run Limited.step (.start (.init maxConcurrency rpm) clock) visits = some s) :
    s.Paced (max 1 rpm).toNat := by
  have hstart : (Limited.start (.init maxConcurrency rpm) clock : Limited κ).Paced
      (max 1 rpm).toNat := Limited.Paced.start (.init maxConcurrency rpm) rfl clock
  exact run_invariant (fun _ v _ hp h => Limited.Paced.step v hp h) hstart hrun

/-- A caller that checks again when it was told to: the reservation it waited for, the
`k`-th, has left the window, and it only waits again if others have reserved since. -/
theorem Limited.Paced.again {rpm k : Nat} {first : ℚ} {u v : Limited κ} (hs : s.Paced rpm)
    (hkept : s.limiter.requestTimes = (s.reservations.drop k).map Prod.snd)
    (hfirst : (s.reservations.map Prod.snd)[k]? = some first) (hu : u.Paced rpm)
    (hsince : s.Since c u) (hold : first + 60 ≤ now) (h : u.step (.check c now) = some v) :
    v.limiter.requestTimes <:+ (v.reservations.drop (k + 1)).map Prod.snd ∧
      (v.stage c ≠ .granted → ∃ r ∈ u.reservations.drop s.reservations.length, r.1 ≠ c) := by
  obtain ⟨hle, rfl⟩ := Limited.step_check h
  obtain ⟨new, hnew, hothers⟩ := hsince
  have hk : (u.reservations.map Prod.snd)[k]? = some first := by
    have hlt := (List.getElem?_eq_some_iff.mp hfirst).1
    rw [hnew, List.map_append, List.getElem?_append_left hlt, hfirst]
  have hout : live 60 now u.limiter.requestTimes <:+
      (u.reservations.map Prod.snd).drop (k + 1) :=
    (hu.keeps.live hle).left (fun t ht => (mem_live.mp ht).2) hk (by linarith)
  rcases u.check_cases c now with ⟨-, heq⟩ | ⟨first', rest, hts, hfull, heq⟩
  · rw [heq]
    constructor
    · have hlt := (List.getElem?_eq_some_iff.mp hk).1
      rw [List.length_map] at hlt
      obtain ⟨before, hbefore⟩ := hout
      simp only
      rw [List.drop_append_of_le_length (by omega), List.map_append, List.map_drop, ← hbefore,
        List.append_assoc]
      exact List.suffix_append _ _
    · intro hnot
      exact absurd (Function.update_self c .granted u.stage) hnot
  · rw [heq]
    rw [hts] at hout
    constructor
    · simp only
      rw [List.map_drop]
      exact hout
    · -- the window is full without the `k`-th, so there are later ones than at `s`
      intro _
      have hlen := hout.length_le
      have hroom := hs.room
      rw [hkept] at hroom
      rw [hu.slots] at hfull
      simp only [List.length_drop, List.length_map, hnew, List.length_append] at hlen hroom
      have hlt := (List.getElem?_eq_some_iff.mp hfirst).1
      rw [List.length_map] at hlt
      rw [hnew, List.drop_left]
      cases new with
      | nil =>
        simp only [List.length_nil] at hlen
        omega
      | cons r new => exact ⟨r, List.mem_cons_self, hothers r List.mem_cons_self⟩

/-- **The limiter paces its requests.** Whatever the callers do, and however long
their sleeps take: any `rpm + 1` consecutive reservations span a minute; every sleep
is for some time; and a caller that is put to sleep waits for the reservation that is
first in the window, finds it gone when it checks after the time it was given, and
waits again only where others have reserved meanwhile. -/
theorem limiter_paces (maxConcurrency rpm : Int) (clock : ℚ) {visits : List (Visit κ)}
    (hrun : run Limited.step (.start (.init maxConcurrency rpm) clock) visits = some s) :
    Spaced (max 1 rpm).toNat 60 (s.reservations.map Prod.snd) ∧
    (∀ c asked seconds, s.stage c = .asleep asked seconds → 0 < seconds) ∧
    ∀ c asked seconds t, s.step (.check c asked) = some t → t.stage c = .asleep asked seconds →
      ∃ k, t.limiter.requestTimes = (t.reservations.drop k).map Prod.snd ∧
        (t.reservations.map Prod.snd)[k]? = some (asked + seconds - 60) ∧
        ∀ others u now v, (∀ m ∈ others, m.caller ≠ c) → run Limited.step t others = some u →
          asked + seconds ≤ now → u.step (.check c now) = some v →
          v.limiter.requestTimes <:+ (v.reservations.drop (k + 1)).map Prod.snd ∧
            (v.stage c ≠ .granted →
              ∃ r ∈ u.reservations.drop t.reservations.length, r.1 ≠ c) := by
  have hs := paced_of_run hrun
  refine ⟨hs.spaced, hs.sleeps, ?_⟩
  intro c asked seconds t ht hasleep
  have htp := hs.step _ ht
  obtain ⟨hle, rfl⟩ := Limited.step_check ht
  rcases s.check_cases c asked with ⟨-, heq⟩ | ⟨first, rest, hts, hfull, heq⟩
  · simp only [heq, Function.update_self] at hasleep
    cases hasleep
  · have hlim : (s.check c asked).limiter.requestTimes = first :: rest := by rw [heq]
    have hseconds : first + 60 - asked = seconds := by
      simp only [heq, Function.update_self] at hasleep
      cases hasleep
      rfl
    obtain ⟨k, hkept, hfirst⟩ := htp.first hlim
    refine ⟨k, hkept, ?_, ?_⟩
    · rw [hfirst, ← hseconds]
      congr 1
      ring
    · intro others u now v hothers hrest hwake hv
      have hup : u.Paced (max 1 rpm).toNat :=
        run_invariant (fun _ v _ hp h => Limited.Paced.step v hp h) htp hrest
      have hsince : (s.check c asked).Since c u :=
        run_invariant_of (I := (s.check c asked).Since c) (fun _ m _ hm hp h => hp.step m hm h)
          hothers ⟨[], (List.append_nil _).symm, nofun⟩ hrest
      exact htp.again hkept hfirst hup hsince (by linarith) hv

/-- **The limiter bounds its callers.** At most `max_concurrency` are in at a time. -/
theorem limiter_concurrency (maxConcurrency rpm : Int) (clock : ℚ) {visits : List (Visit κ)}
    (hrun : run Limited.step (.start (.init maxConcurrency rpm) clock) visits = some s)
    {callers : List κ} (hnodup : callers.Nodup) (hin : ∀ c ∈ callers, s.stage c ≠ .outside) :
    callers.length ≤ (max 1 maxConcurrency).toNat := by
  have hstart : (Limited.start (.init maxConcurrency rpm) clock : Limited κ).Seated
      (max 1 maxConcurrency).toNat :=
    ⟨∅, fun c => by simp [Limited.start], by simp [Limited.start, ModelLimiter.init]⟩
  obtain ⟨inside, hmem, hcard⟩ :=
    run_invariant (fun _ v _ hp h => Limited.Seated.step v hp h) hstart hrun
  have hsub : callers.toFinset ⊆ inside := by
    intro c hc
    exact (hmem c).mpr (hin c (List.mem_toFinset.mp hc))
  have hle := Finset.card_le_card hsub
  rw [List.toFinset_card_of_nodup hnodup] at hle
  omega

end

/-- With one slot a minute and two callers: the second sleeps for the first's slot, and
sleeps again because the first has taken the next one. -/
def twoCallers : List (Visit Bool) :=
  [.acquire false, .check false 0, .leave false, .acquire true, .check true 30,
   .acquire false, .check false 60, .check true 61]

theorem limiter_paces_twoCallers :
    ∃ s, run Limited.step (.start (.init 2 1) 0) twoCallers = some s ∧
      s.reservations = [(false, 0), (false, 60)] ∧
      Spaced 1 60 (s.reservations.map Prod.snd) := by
  have hreserved : (run Limited.step (.start (.init 2 1) 0) twoCallers).map
      (fun s => s.reservations) = some [(false, 0), (false, 60)] := by decide +kernel
  cases hrun : run Limited.step (.start (.init 2 1) 0) twoCallers with
  | none =>
    rw [hrun] at hreserved
    cases hreserved
  | some s =>
    rw [hrun] at hreserved
    exact ⟨s, rfl, Option.some.inj hreserved, (limiter_paces 2 1 0 hrun).1⟩

end Northstack
