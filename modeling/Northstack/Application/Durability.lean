import Northstack.Application.Discipline

/-!
# Rounds that survive an attempt

A round of tools that succeeded belongs to the conversation from then on, until
compaction drops it. A failed attempt hands its conversation on in its result;
an attempt that raises has none.

**Results.**
* `Worked.rounds`: the result of an attempt has the rounds the attempt completed.
* `rounds_carried_iff`: in every run of a cell the attempt behind a failed one
  begins with its rounds if and only if the failed one returned a result.
-/
namespace Northstack

open Coop CellRunner

/-! ## What becomes of a conversation -/

/-- Turns join it, and compaction drops some. -/
inductive Retains (estimate : List ModelMessage → Nat) (rs : List ModelMessage) :
    List ModelMessage → Prop where
  | whole : Retains estimate rs rs
  | joined {ms : List ModelMessage} (new : List ModelMessage) (h : Retains estimate rs ms) :
    Retains estimate rs (ms ++ new)
  | compacted {ms messages : List ModelMessage} {window elided total : Nat}
    (h : Retains estimate rs ms) (hc : compactMessages estimate window ms = (messages, elided)) :
    Retains estimate rs (noteElision messages total)

/-- There is something behind the objective. -/
def Spanned (rs : List MessageRole) : Prop :=
  ∃ r rest, rs.dropWhile (· = .system) = .user :: r :: rest

section

variable {estimate : List ModelMessage → Nat} {rs ms messages : List ModelMessage}
  {window elided total : Nat}

theorem Retains.trans {ns : List ModelMessage} (h : Retains estimate rs ms)
    (h' : Retains estimate ms ns) : Retains estimate rs ns := by
  induction h' with
  | whole => exact h
  | joined new _ ih => exact ih.joined new
  | compacted _ hc ih => exact ih.compacted hc

theorem Headed.compacted (h : Headed (rolesOf ms))
    (hc : compactMessages estimate window ms = (messages, elided)) :
    Headed (rolesOf (noteElision messages total)) := by
  obtain ⟨sys, user, rest, rfl, hsys, huser⟩ := h.split
  obtain ⟨n, -, hleft⟩ := compactMessages_left rest hsys huser estimate window
  rw [hleft] at hc
  cases hc
  rw [rolesOf_noteElision]
  exact headed_of_split hsys huser

theorem Retains.headed (h : Retains estimate rs ms) (hh : Headed (rolesOf rs)) :
    Headed (rolesOf ms) := by
  induction h with
  | whole => exact hh
  | joined new _ ih =>
    rw [rolesOf_append]
    exact ih.append _
  | compacted _ hc ih => exact ih.compacted hc

theorem Spanned.headed {roles : List MessageRole} (h : Spanned roles) : Headed roles := by
  obtain ⟨r, rest, h⟩ := h
  unfold Headed
  rw [h]
  rfl

theorem spanned_of_split {sys rest : List ModelMessage} {user : ModelMessage}
    (hsys : ∀ m ∈ sys, m.role = .system) (huser : user.role = .user) (hne : rest ≠ []) :
    Spanned (rolesOf (sys ++ user :: rest)) := by
  obtain ⟨m, rest, rfl⟩ := List.exists_cons_of_ne_nil hne
  refine ⟨m.role, rolesOf rest, ?_⟩
  unfold rolesOf
  rw [List.map_append, List.dropWhile_append_of_pos, List.map_cons, huser]
  · rfl
  · intro r hr
    obtain ⟨m, hm, rfl⟩ := List.mem_map.mp hr
    exact decide_eq_true (hsys m hm)

theorem Spanned.split (h : Spanned (rolesOf ms)) : ∃ sys user rest, ms = sys ++ user :: rest ∧
    (∀ m ∈ sys, m.role = .system) ∧ user.role = .user ∧ rest ≠ [] := by
  obtain ⟨sys, user, rest, rfl, hsys, huser⟩ := h.headed.split
  refine ⟨sys, user, rest, rfl, hsys, huser, ?_⟩
  rintro rfl
  obtain ⟨r, rest, h⟩ := h
  unfold rolesOf at h
  rw [List.map_append, List.dropWhile_append_of_pos, List.map_singleton, huser] at h
  · cases h
  · intro r hr
    obtain ⟨m, hm, rfl⟩ := List.mem_map.mp hr
    exact decide_eq_true (hsys m hm)

theorem Headed.joined (h : Headed (rolesOf ms)) {new : List ModelMessage} (hne : new ≠ []) :
    Spanned (rolesOf (ms ++ new)) := by
  obtain ⟨sys, user, rest, rfl, hsys, huser⟩ := h.split
  rw [List.append_assoc, List.cons_append]
  exact spanned_of_split hsys huser (List.append_ne_nil_of_right_ne_nil _ hne)

/-- Compaction never drops all spans. -/
theorem Retains.spanned (h : Retains estimate rs ms) (hs : Spanned (rolesOf rs)) :
    Spanned (rolesOf ms) := by
  induction h with
  | whole => exact hs
  | joined new _ ih =>
    obtain ⟨sys, user, rest, rfl, hsys, huser, hne⟩ := ih.split
    rw [List.append_assoc, List.cons_append]
    exact spanned_of_split hsys huser (List.append_ne_nil_of_left_ne_nil hne _)
  | compacted _ hc ih =>
    obtain ⟨sys, user, rest, rfl, hsys, huser, hne⟩ := ih.split
    obtain ⟨n, hn, hleft⟩ := compactMessages_left rest hsys huser estimate _
    rw [hleft, Prod.mk.injEq] at hc
    obtain ⟨rfl, -⟩ := hc
    rw [rolesOf_noteElision]
    refine spanned_of_split hsys huser fun hnil => ?_
    have hspans : (spans rest).length ≠ 0 := by
      intro h0
      refine hne ?_
      rw [← spans_flatten rest, List.eq_nil_of_length_eq_zero h0]
      rfl
    have hlt : n < (spans rest).length := by
      unfold minRetainedSpans at hn
      omega
    have hspan : (spans rest)[n] ∈ (spans rest).drop n := by
      rw [← List.cons_getElem_drop_succ]
      exact List.mem_cons_self
    refine List.ne_nil_of_mem_splitBy (List.mem_of_mem_drop hspan) ?_
    exact List.flatten_eq_nil_iff.mp hnil _ hspan

end
/-! ## One attempt -/

section Attempt

variable {w : WorkerInput} {profile : ModelProfile} {window : Nat} {t : Turn} {ts : List Turn}
  {r : ModelResponse} {c c' : Conv} {notes : List Obs} {next : WorkerResult ⊕ Conv}
  {rs : List ModelMessage}

/-- The messages a turn leaves. -/
def messagesOf : WorkerResult ⊕ Conv → List ModelMessage
  | .inl r => r.messages
  | .inr c => c.messages

/-- A note from within an attempt's loop: a passage of the attempt, but not its
beginning or its end. -/
def Within (w : WorkerInput) : Obs → Prop
  | .passed id n p _ => id = w.cell.id ∧ n = w.attempt ∧ p ≠ .began ∧ ∀ text, p ≠ .retried text
  | .restored .. => False
  | _ => True

/-- What a piece of an attempt notes and leaves: it is within the attempt, the
conversation lives on, and so does each round that it completes. -/
structure Lasts (w : WorkerInput) (ms : List ModelMessage) (notes : List Obs)
    (left : List ModelMessage) : Prop where
  within : ∀ o ∈ notes, Within w o
  retains : Retains w.estimate ms left
  rounds : ∀ rs, w.passed .rounded rs ∈ notes → Retains w.estimate rs left ∧
    ∃ before new, new ≠ [] ∧ rs = before ++ new ∧ Retains w.estimate ms before

theorem Lasts.of_silent {left : List ModelMessage} (hw : ∀ o ∈ notes, Within w o)
    (hr : ∀ rs, w.passed .rounded rs ∉ notes) {ms : List ModelMessage}
    (h : Retains w.estimate ms left) : Lasts w ms notes left :=
  ⟨hw, h, fun rs hm => absurd hm (hr rs)⟩

theorem Lasts.seq {ms ms' left : List ModelMessage} {notes' : List Obs}
    (h : Lasts w ms notes ms') (h' : Lasts w ms' notes' left) :
    Lasts w ms (notes ++ notes') left where
  within o ho := (List.mem_append.mp ho).elim (h.within o) (h'.within o)
  retains := h.retains.trans h'.retains
  rounds rs hm := by
    rcases List.mem_append.mp hm with hm | hm
    · obtain ⟨hr, hnew⟩ := h.rounds rs hm
      exact ⟨hr.trans h'.retains, hnew⟩
    · obtain ⟨hr, before, new, hne, he, hbefore⟩ := h'.rounds rs hm
      exact ⟨hr, before, new, hne, he, h.retains.trans hbefore⟩

theorem Compacted.lasts (h : Compacted w window c notes c') :
    Lasts w c.messages notes c'.messages := by
  cases h with
  | kept => exact .of_silent (List.forall_mem_nil _) (fun _ => List.not_mem_nil) .whole
  | elided h =>
    refine .of_silent (fun o ho => ?_) (fun rs hm => ?_) (.compacted .whole h)
    · rw [List.mem_singleton.mp ho]
      exact ⟨rfl, rfl, nofun, nofun⟩
    · cases List.mem_singleton.mp hm

theorem withFinal_retains (c : Conv) (text : String) :
    Retains w.estimate c.messages (c.withFinal text) := by
  unfold Conv.withFinal
  split
  · exact .whole
  · exact .joined _ .whole

theorem answers_last (t : Turn) (calls : List (ToolCall × Nat)) (c : Conv) :
    Lasts w c.messages (answerCalls w t calls c).1 (answerCalls w t calls c).2.messages := by
  refine .of_silent (fun o ho => ?_) (fun rs hm => ?_) ?_
  · obtain ⟨x, ms, rfl⟩ := answerCalls_notes t calls c o ho
    exact ⟨rfl, rfl, nofun, nofun⟩
  · obtain ⟨x, ms, he⟩ := answerCalls_notes t calls c _ hm
    cases he
  · rw [answerCalls_conv]
    exact .joined _ .whole

theorem Replied.lasts (h : Replied w profile t r c notes next) :
    Lasts w c.messages notes (messagesOf next) := by
  have hnote : ∀ o ∈ [w.respondedTo profile c r], Within w o := by
    intro o ho
    rw [List.mem_singleton.mp ho]
    trivial
  have hresponded : Lasts w c.messages [w.respondedTo profile c r] c.messages :=
    .of_silent hnote (fun rs hm => by cases List.mem_singleton.mp hm) .whole
  have hcalled : Retains w.estimate c.messages ((c.charged profile r).called r).messages :=
    .joined _ .whole
  cases h with
  | ended hcalls h =>
    refine .of_silent hnote (fun rs hm => by cases List.mem_singleton.mp hm) ?_
    obtain ⟨-, hm⟩ := afterText_inl h
    unfold messagesOf
    dsimp only
    rw [hm]
    exact withFinal_retains (c.charged profile r) r.text
  | continued hcalls h =>
    refine .of_silent (fun o ho => ?_) (fun rs hm => ?_) ?_
    · rcases List.mem_cons.mp ho with rfl | ho
      · trivial
      · rw [List.mem_singleton.mp ho]
        exact ⟨rfl, rfl, nofun, nofun⟩
    · rcases List.mem_cons.mp hm with hm | hm
      · cases hm
      · cases List.mem_singleton.mp hm
    · obtain ⟨-, hcase⟩ := afterText_inr h
      unfold messagesOf
      dsimp only
      rcases hcase with ⟨-, -, -, -, prompt, hm⟩ | ⟨-, -, -, -, hm⟩
      · rw [hm]
        exact .joined _ .whole
      · rw [hm, List.append_assoc]
        exact .joined _ .whole
  | @cut calls rest h =>
    have hjoined : Lasts w c.messages [w.respondedTo profile c r]
        ((c.charged profile r).called r).messages :=
      .of_silent hnote (fun rs hm => by cases List.mem_singleton.mp hm) hcalled
    exact hjoined.seq (answers_last t calls _)
  | @round answered hcalls h =>
    have hanswers := answers_last (w := w) t r.toolCalls.zipIdx ((c.charged profile r).called r)
    have hm : answered.2.messages = c.messages ++
        ({ role := .assistant, content := r.text, toolCalls := r.toolCalls } ::
          (answersTo w t r.toolCalls.zipIdx).map fun x => toolMessage x.1 x.2) := by
      rw [h, answerCalls_conv]
      exact List.append_assoc _ _ _
    rw [← h] at hanswers
    refine ⟨fun o ho => ?_, hcalled.trans hanswers.retains, fun rs hrs => ?_⟩
    · rcases List.mem_cons.mp ho with rfl | ho
      · trivial
      · rcases List.mem_append.mp ho with ho | ho
        · exact hanswers.within o ho
        · rw [List.mem_singleton.mp ho]
          exact ⟨rfl, rfl, nofun, nofun⟩
    · rcases List.mem_cons.mp hrs with hrs | hrs
      · cases hrs
      · rcases List.mem_append.mp hrs with hrs | hrs
        · obtain ⟨x, ms, he⟩ := answerCalls_notes t r.toolCalls.zipIdx _ _ (h ▸ hrs)
          cases he
        · cases List.mem_singleton.mp hrs
          exact ⟨.whole, c.messages, _, List.cons_ne_nil _ _, hm, .whole⟩

theorem Sent.lasts (h : Sent w profile t c notes next) :
    Lasts w c.messages notes (messagesOf next) := by
  have hasked : Lasts w c.messages
      [w.passed (.sent (requestedOutput w profile c)) c.messages,
        .requested w.cell.id w.attempt c.messages] c.messages := by
    refine .of_silent (fun o ho => ?_) (fun rs hm => ?_) .whole
    · rcases List.mem_cons.mp ho with rfl | ho
      · exact ⟨rfl, rfl, nofun, nofun⟩
      · rw [List.mem_singleton.mp ho]
        trivial
    · rcases List.mem_cons.mp hm with hm | hm
      · cases hm
      · cases List.mem_singleton.mp hm
  cases h with
  | starved => exact .of_silent (List.forall_mem_nil _) (fun _ => List.not_mem_nil) .whole
  | unanswered => exact hasked
  | answered _ _ hnext => exact hasked.seq hnext.lasts

theorem Turned.lasts (h : Turned w profile t c notes next) :
    Lasts w c.messages notes (messagesOf next) := by
  cases h with
  | stopped => exact .of_silent (List.forall_mem_nil _) (fun _ => List.not_mem_nil) .whole
  | went _ hc hs => exact hc.lasts.seq hs.lasts

/-- **Rounds.** What an attempt makes of the conversation it starts from. -/
theorem Looped.lasts {result : Option WorkerResult} (h : Looped w profile ts c notes result) :
    ∃ left, Lasts w c.messages notes left ∧ ∀ r ∈ result, r.messages = left := by
  induction h with
  | out c =>
    exact ⟨_, .of_silent (List.forall_mem_nil _) (fun _ => List.not_mem_nil) .whole, nofun⟩
  | last h =>
    refine ⟨_, h.lasts, fun r hr => ?_⟩
    cases hr
    rfl
  | more h _ ih =>
    obtain ⟨left, hlasts, hresult⟩ := ih
    exact ⟨left, h.lasts.seq hlasts, hresult⟩

/-- What an attempt notes: nothing, if its profile is not there; else its
beginning and what the loop makes of it. -/
theorem Worked.lasts {a : Attempt} {resume : Option (List ModelMessage)}
    {result : Option WorkerResult} (h : Worked w a resume notes result) :
    (notes = [] ∧ ∀ r ∈ result, r.messages = []) ∨
      ∃ rest left, notes = w.passed .began (Worker.initialMessages w resume) :: rest ∧
        Lasts w (Worker.initialMessages w resume) rest left ∧ ∀ r ∈ result, r.messages = left := by
  cases h with
  | unresolved =>
    refine .inl ⟨rfl, fun r hr => ?_⟩
    cases hr
    rfl
  | looped _ hs =>
    obtain ⟨left, hlasts, hresult⟩ := hs.lasts
    exact .inr ⟨_, left, rfl, hlasts, hresult⟩

/-- What a round leaves has the round behind the objective. -/
theorem Lasts.spanned {left : List ModelMessage} (h : Lasts w ms notes left)
    (hms : Headed (rolesOf ms)) (hr : w.passed .rounded rs ∈ notes) : Spanned (rolesOf rs) := by
  obtain ⟨-, before, new, hne, rfl, hbefore⟩ := h.rounds rs hr
  exact (hbefore.headed hms).joined hne

theorem initial_headed (w : WorkerInput) {resume : Option (List ModelMessage)}
    (h : ∀ ms ∈ resume, ms = [] ∨ Headed (rolesOf ms)) :
    Headed (rolesOf (Worker.initialMessages w resume)) := by
  have hfresh : Headed (rolesOf
      ((if w.systemPrompt = "" then [] else [{ role := .system, content := w.systemPrompt }]) ++
        [{ role := .user, content := w.userPrompt }])) := by
    split <;> rfl
  cases resume with
  | none => exact hfresh
  | some ms =>
    cases ms with
    | nil => exact hfresh
    | cons m ms => exact (h _ rfl).resolve_left (List.cons_ne_nil m ms)

/-- A conversation that starts anew has no rounds. -/
theorem initial_fresh (w : WorkerInput) (hs : Spanned (rolesOf rs)) :
    ¬ Retains w.estimate rs (Worker.initialMessages w none) := by
  intro h
  obtain ⟨r, rest, h⟩ := h.spanned hs
  unfold Worker.initialMessages at h
  dsimp only at h
  split at h <;> cases h

theorem initial_resumed (w : WorkerInput) {ms : List ModelMessage} (hne : ms ≠ []) :
    Worker.initialMessages w (some ms) = ms := by
  obtain ⟨m, ms, rfl⟩ := List.exists_cons_of_ne_nil hne
  rfl

end Attempt

/-! ## Every run of a cell -/

/-- A checkpoint holds a conversation that begins as every conversation does. -/
def RestoresHeaded (told : List Obs) : Prop :=
  ∀ id ms, .restored id ms ∈ told → ms = [] ∨ Headed (rolesOf ms)

/-- A round that attempt `m` completed, and how it was tried again. -/
structure RetriedRound (c : CellInput) (told : List Obs) (m : Nat) (rs : List ModelMessage)
    (p : Option String) : Prop where
  rounded : .passed c.cell.id m .rounded rs ∈ told
  retried : ∃ cs, .passed c.cell.id m (.retried p) cs ∈ told

/-- Attempt `k` is the next after `m` that began a conversation. -/
structure NextBegun (c : CellInput) (told : List Obs) (m k : Nat) (ms : List ModelMessage) :
    Prop where
  begun : .passed c.cell.id k .began ms ∈ told
  later : m < k
  next : ∀ j ms', .passed c.cell.id j .began ms' ∈ told → m < j → k ≤ j

/-- None after `m` began one. -/
def NoneBegun (c : CellInput) (told : List Obs) (m : Nat) : Prop :=
  ∀ j ms, .passed c.cell.id j .began ms ∈ told → j ≤ m

/-- The next conversation has the round if and only if the failed attempt
returned a result and the attempt behind it is the one that began. -/
def CarriesRounds (c : CellInput) (told : List Obs) : Prop :=
  ∀ m k rs p ms, RetriedRound c told m rs p → NextBegun c told m k ms →
    (Retains c.estimate rs ms ↔ p.isSome ∧ k = m + 1)

/-- What attempt `n` resumes from. -/
structure RoundsBefore (c : CellInput) (n : Nat) (resume : Option (List ModelMessage))
    (told : List Obs) : Prop where
  past : ∀ id k p ms, .passed id k p ms ∈ told → k < n
  headed : ∀ ms ∈ resume, ms = [] ∨ Headed (rolesOf ms)
  spanned : ∀ m rs, .passed c.cell.id m .rounded rs ∈ told → Spanned (rolesOf rs)
  kept : ∀ m rs p, RetriedRound c told m rs p → p.isSome → n = m + 1 →
    ∃ ms ∈ resume, ms ≠ [] ∧ Retains c.estimate rs ms
  lost : ∀ m rs p, RetriedRound c told m rs p → NoneBegun c told m → ¬ (p.isSome ∧ n = m + 1) →
    resume = none

/-- What attempt `n` leaves. -/
structure RoundsBehind (c : CellInput) (n : Nat) (result : Option WorkerResult)
    (told : List Obs) : Prop where
  past : ∀ id k p ms, .passed id k p ms ∈ told → k ≤ n ∧ (k = n → ∀ text, p ≠ .retried text)
  headed : ∀ r ∈ result, r.messages = [] ∨ Headed (rolesOf r.messages)
  spanned : ∀ m rs, .passed c.cell.id m .rounded rs ∈ told → Spanned (rolesOf rs)
  kept : ∀ rs, .passed c.cell.id n .rounded rs ∈ told → ∀ r ∈ result, r.messages ≠ [] ∧
    Retains c.estimate rs r.messages
  lost : ∀ m rs p, RetriedRound c told m rs p → NoneBegun c told m → ∀ r ∈ result, r.messages = []

section Cell

variable {c : CellInput} {n : Nat} {resume : Option (List ModelMessage)}
  {result : Option WorkerResult} {told notes rest p : List Obs} {a : Attempt}
  {init left rs : List ModelMessage}

/-- A note behind `told` is the attempt's own. -/
theorem RoundsBefore.past_append (hb : RoundsBefore c n resume told)
    (hl : Lasts (workerInput c n) init rest left)
    (hp : p <+: (workerInput c n).passed .began init :: rest) {id : String} {k : Nat} {q : Passage}
    {ms : List ModelMessage} (hm : .passed id k q ms ∈ told ++ p) :
    (k < n ∧ .passed id k q ms ∈ told) ∨ k = n ∧
      (q = .began ∧ ms = init ∨
        q ≠ .began ∧ (∀ text, q ≠ .retried text) ∧ .passed id k q ms ∈ rest) := by
  rcases List.mem_append.mp hm with hm | hm
  · exact .inl ⟨hb.past id k q ms hm, hm⟩
  · refine .inr ?_
    rcases List.mem_cons.mp (hp.subset hm) with he | hrest
    · cases he
      exact ⟨rfl, .inl ⟨rfl, rfl⟩⟩
    · obtain ⟨-, rfl, hbegan, hretried⟩ := hl.within _ hrest
      exact ⟨rfl, .inr ⟨hbegan, hretried, hrest⟩⟩

theorem RoundsBefore.retried_append (hb : RoundsBefore c n resume told)
    (hl : Lasts (workerInput c n) init rest left)
    (hp : p <+: (workerInput c n).passed .began init :: rest) {m : Nat} {text : Option String}
    (h : RetriedRound c (told ++ p) m rs text) : m < n ∧ RetriedRound c told m rs text := by
  obtain ⟨hround, cs, hretried⟩ := h
  rcases hb.past_append hl hp hretried with ⟨hlt, hretried⟩ | ⟨-, ⟨hq, -⟩ | ⟨-, hq, -⟩⟩
  · refine ⟨hlt, ?_, cs, hretried⟩
    rcases hb.past_append hl hp hround with ⟨-, hround⟩ | ⟨heq, -⟩
    · exact hround
    · omega
  · cases hq
  · exact absurd rfl (hq text)

theorem RoundsBefore.begun_append (hb : RoundsBefore c n resume told)
    (hl : Lasts (workerInput c n) init rest left)
    (hp : p <+: (workerInput c n).passed .began init :: rest) {m k : Nat}
    {ms : List ModelMessage} (h : NextBegun c (told ++ p) m k ms) :
    NextBegun c told m k ms ∨ (k = n ∧ ms = init ∧ NoneBegun c told m) := by
  obtain ⟨hbegun, hlater, hnext⟩ := h
  have hold : ∀ j ms', .passed c.cell.id j .began ms' ∈ told → m < j → k ≤ j :=
    fun j ms' hj => hnext j ms' (List.mem_append_left _ hj)
  rcases hb.past_append hl hp hbegun with ⟨-, hbegun⟩ | ⟨rfl, ⟨-, rfl⟩ | ⟨hq, -⟩⟩
  · exact .inl ⟨hbegun, hlater, hold⟩
  · refine .inr ⟨rfl, rfl, fun j ms' hj => ?_⟩
    have hlt := hb.past _ _ _ _ hj
    by_contra hm
    have := hold j ms' hj (by omega)
    omega
  · exact absurd rfl hq

/-- While an attempt goes on no other begins. -/
theorem RoundsBefore.carries_append (hb : RoundsBefore c n resume told)
    (hc : CarriesRounds c told)
    (hl : Lasts (workerInput c n) (Worker.initialMessages (workerInput c n) resume) rest left)
    (hp : p <+: (workerInput c n).passed .began
      (Worker.initialMessages (workerInput c n) resume) :: rest) : CarriesRounds c (told ++ p) := by
  intro m k rs text ms hround hnext
  obtain ⟨-, hround⟩ := hb.retried_append hl hp hround
  rcases hb.begun_append hl hp hnext with hnext | ⟨rfl, rfl, hnone⟩
  · exact hc m k rs text ms hround hnext
  · by_cases hgo : text.isSome ∧ k = m + 1
    · obtain ⟨ms, hms, hne, hretains⟩ := hb.kept m rs text hround hgo.1 hgo.2
      cases hms
      rw [initial_resumed _ hne]
      exact ⟨fun _ => hgo, fun _ => hretains⟩
    · rw [hb.lost m rs text hround hnone hgo]
      exact ⟨fun h => absurd h (initial_fresh (workerInput c k) (hb.spanned m rs hround.rounded)),
        fun h => absurd h hgo⟩

/-- An attempt that was cut off leaves no conversation. -/
theorem RoundsBefore.cut (hb : RoundsBefore c n resume told)
    (hl : Lasts (workerInput c n) (Worker.initialMessages (workerInput c n) resume) rest left)
    (hp : p <+: (workerInput c n).passed .began
      (Worker.initialMessages (workerInput c n) resume) :: rest) :
    RoundsBehind c n none (told ++ p) where
  past id k q ms hm := by
    rcases hb.past_append hl hp hm with ⟨hlt, -⟩ | ⟨heq, ⟨rfl, -⟩ | ⟨-, hq, -⟩⟩
    · exact ⟨by omega, fun he => by omega⟩
    · exact ⟨by omega, fun _ => nofun⟩
    · exact ⟨by omega, fun _ => hq⟩
  headed := nofun
  spanned m rs hm := by
    rcases hb.past_append hl hp hm with ⟨-, hm⟩ | ⟨rfl, ⟨hq, -⟩ | ⟨-, -, hm⟩⟩
    · exact hb.spanned m rs hm
    · cases hq
    · exact hl.spanned (initial_headed _ hb.headed) hm
  kept := nofun
  lost := nofun

/-- An attempt that returned leaves its rounds. -/
theorem RoundsBefore.returned (hb : RoundsBefore c n resume told) {r : WorkerResult}
    (hl : Lasts (workerInput c n) (Worker.initialMessages (workerInput c n) resume) rest r.messages) :
    RoundsBehind c n (some r) (told ++ (workerInput c n).passed .began
      (Worker.initialMessages (workerInput c n) resume) :: rest) := by
  have hheaded := hl.retains.headed (initial_headed _ hb.headed)
  refine { hb.cut hl List.prefix_rfl with headed := ?_, kept := ?_, lost := ?_ }
  · intro r' hr
    cases hr
    exact .inr hheaded
  · intro rs hm r' hr
    cases hr
    rcases hb.past_append hl List.prefix_rfl hm with ⟨hlt, -⟩ | ⟨-, ⟨hq, -⟩ | ⟨-, -, hm⟩⟩
    · omega
    · cases hq
    · refine ⟨fun he => ?_, (hl.rounds rs hm).1⟩
      rw [he] at hheaded
      cases hheaded
  · intro m rs text hround hnone
    obtain ⟨hlt, -⟩ := hb.retried_append hl List.prefix_rfl hround
    have := hnone n _ (List.mem_append_right _ List.mem_cons_self)
    omega

/-- An attempt that found no profile. -/
theorem RoundsBefore.unresolved (hb : RoundsBefore c n resume told)
    (hr : ∀ r ∈ result, r.messages = []) : RoundsBehind c n result told where
  past id k q ms hm := by
    have := hb.past id k q ms hm
    exact ⟨by omega, fun he => by omega⟩
  headed r hm := .inl (hr r hm)
  spanned := hb.spanned
  kept rs hm := by
    have := hb.past _ _ _ _ hm
    omega
  lost _ _ _ _ _ := hr

section Handed

variable {text : Option String} {cs : List ModelMessage} {carried : Option (List ModelMessage)}

theorem RoundsBehind.mem_handed {id : String} {k : Nat} {q : Passage} {ms : List ModelMessage}
    (hm : .passed id k q ms ∈ told ++ [.passed c.cell.id n (.retried text) cs])
    (hq : ∀ text, q ≠ .retried text) : .passed id k q ms ∈ told := by
  rcases List.mem_append.mp hm with hm | hm
  · exact hm
  · cases List.mem_singleton.mp hm
    exact absurd rfl (hq text)

theorem RoundsBehind.retried_handed (hb : RoundsBehind c n result told) {m : Nat}
    {q : Option String}
    (h : RetriedRound c (told ++ [.passed c.cell.id n (.retried text) cs]) m rs q) :
    .passed c.cell.id m .rounded rs ∈ told ∧
      (m = n ∧ q = text ∨ m < n ∧ RetriedRound c told m rs q) := by
  obtain ⟨hround, cs', hretried⟩ := h
  have hround := mem_handed hround fun _ => nofun
  refine ⟨hround, ?_⟩
  rcases List.mem_append.mp hretried with hretried | hretried
  · obtain ⟨hle, hnot⟩ := hb.past _ _ _ _ hretried
    rcases Nat.lt_or_eq_of_le hle with hlt | heq
    · exact .inr ⟨hlt, hround, cs', hretried⟩
    · exact absurd rfl (hnot heq q)
  · cases List.mem_singleton.mp hretried
    exact .inl ⟨rfl, rfl⟩

theorem RoundsBehind.carries_handed (hb : RoundsBehind c n result told)
    (hc : CarriesRounds c told) :
    CarriesRounds c (told ++ [.passed c.cell.id n (.retried text) cs]) := by
  intro m k rs q ms hround hnext
  have hbegun := mem_handed hnext.begun fun _ => nofun
  have hk := (hb.past _ _ _ _ hbegun).1
  have hlater := hnext.later
  rcases (hb.retried_handed hround).2 with ⟨rfl, -⟩ | ⟨-, hround⟩
  · omega
  · refine hc m k rs q ms hround ⟨hbegun, hlater, fun j ms' hj => ?_⟩
    exact hnext.next j ms' (List.mem_append_left _ hj)

/-- The failed attempt's result hands its conversation on, an exception none. -/
theorem RoundsBehind.handed (hb : RoundsBehind c n result told)
    (hsome : text.isSome → ∃ r ∈ result, carried = carriedOf r.messages)
    (hnone : text = none → carried = none) :
    RoundsBefore c (n + 1) carried (told ++ [.passed c.cell.id n (.retried text) cs]) where
  past id k q ms hm := by
    rcases List.mem_append.mp hm with hm | hm
    · have := (hb.past _ _ _ _ hm).1
      omega
    · cases List.mem_singleton.mp hm
      omega
  headed ms hm := by
    cases text with
    | none =>
      rw [hnone rfl] at hm
      cases hm
    | some text =>
      obtain ⟨r, hr, rfl⟩ := hsome rfl
      obtain ⟨rfl, -⟩ := mem_carriedOf hm
      exact hb.headed r hr
  spanned m rs hm := hb.spanned m rs (mem_handed hm fun _ => nofun)
  kept m rs q hround hq he := by
    obtain ⟨hrounded, ⟨rfl, rfl⟩ | ⟨hlt, -⟩⟩ := hb.retried_handed hround
    · obtain ⟨r, hr, rfl⟩ := hsome hq
      obtain ⟨hne, hretains⟩ := hb.kept rs hrounded r hr
      refine ⟨r.messages, ?_, hne, hretains⟩
      unfold carriedOf
      rw [if_neg hne]
      rfl
    · omega
  lost m rs q hround hbegun hgo := by
    cases text with
    | none => exact hnone rfl
    | some text =>
      obtain ⟨r, hr, rfl⟩ := hsome rfl
      rcases (hb.retried_handed hround).2 with ⟨rfl, rfl⟩ | ⟨-, hround⟩
      · exact absurd ⟨rfl, rfl⟩ hgo
      · have hold : NoneBegun c told m := fun j ms hj => hbegun j ms (List.mem_append_left _ hj)
        unfold carriedOf
        rw [if_pos (hb.lost m rs q hround hold r hr)]

end Handed

end Cell

theorem RestoresHeaded.left {told notes : List Obs} (h : RestoresHeaded (told ++ notes)) :
    RestoresHeaded told := fun id ms hm => h id ms (List.mem_append_left _ hm)

/-- What a cell's attempts leave of the rounds they completed. -/
def roundsHandover (c : CellInput) : Handover c where
  keeps told := RestoresHeaded told → CarriesRounds c told
  before n resume told := RestoresHeaded told → RoundsBefore c n resume told
  behind n result told := RestoresHeaded told → RoundsBehind c n result told
  fresh := by
    refine ⟨fun _ m k rs q ms h => absurd h.rounded List.not_mem_nil, fun _ => ?_⟩
    exact ⟨nofun, nofun, nofun, fun _ _ _ h => absurd h.rounded List.not_mem_nil,
      fun _ _ _ h => absurd h.rounded List.not_mem_nil⟩
  restored ms := by
    have hround {m : Nat} {rs : List ModelMessage} {q : Option String}
        (h : RetriedRound c [.restored c.cell.id ms] m rs q) : False := by
      cases List.mem_singleton.mp h.rounded
    refine ⟨fun _ m k rs q ms h => (hround h).elim, fun ht => ⟨?_, ?_, ?_, ?_, ?_⟩⟩
    · intro id k q ms' hm
      cases List.mem_singleton.mp hm
    · intro ms' hm
      cases hm
      exact ht _ _ (List.mem_singleton.mpr rfl)
    · intro m rs hm
      cases List.mem_singleton.mp hm
    · exact fun m rs q h => (hround h).elim
    · exact fun m rs q h => (hround h).elim
  attempt {a n resume told notes result} hb hk hworked := by
    rcases hworked.lasts with ⟨rfl, hr⟩ | ⟨rest, left, rfl, hlasts, hr⟩
    · refine ⟨fun p hp => ?_, fun r hm => ?_⟩
      · rw [List.prefix_nil.mp hp, List.append_nil]
        exact ⟨hk, fun ht => (hb ht).unresolved nofun⟩
      · rw [List.append_nil]
        refine fun ht => (hb ht).unresolved fun r' hr' => ?_
        cases hr'
        exact hr r hm
    · refine ⟨fun p hp => ⟨fun ht => ?_, fun ht => (hb ht.left).cut hlasts hp⟩, fun r hm ht => ?_⟩
      · exact (hb ht.left).carries_append (hk ht.left) hlasts hp
      · obtain rfl := hr r hm
        exact (hb ht.left).returned hlasts
  handed {n r told} hr hk _ _ := by
    refine ⟨fun ht => (hr ht.left).carries_handed (hk ht.left), fun ht => ?_⟩
    exact (hr ht.left).handed (fun _ => ⟨r, rfl, rfl⟩) nofun
  raised hr hk :=
    ⟨fun ht => (hr ht.left).carries_handed (hk ht.left), fun ht => (hr ht.left).handed nofun
      fun _ => rfl⟩

/-- **Mid-cell durability.** In every run of a cell, whatever its siblings do and
wherever exceptions arrive: where an attempt completed a round of tools and was
tried again, the next conversation has the round, up to compaction and with what
joined it since, if and only if the attempt returned a result and the attempt
directly behind it began that conversation. -/
theorem rounds_carried_iff (c : CellInput) (script : List Attempt) (gaps : List (Gap St Exc))
    (s : St) {told : List Obs} (hnotes : (runCell c script).heard turnNotes gaps s = told)
    (hrestored : RestoresHeaded told) {m k : Nat} {rs ms : List ModelMessage} {p : Option String}
    (hround : RetriedRound c told m rs p) (hnext : NextBegun c told m k ms) :
    Retains c.estimate rs ms ↔ p.isSome ∧ k = m + 1 := by
  subst hnotes
  exact (roundsHandover c).heard script gaps s hrestored m k rs p ms hround hnext

/-- A cell with a tool that reads. -/
def toolCell : CellInput :=
  { turnCell [] with toolDefs := [{ name := "t" }], registry := [{ name := "t" }] }

/-- A turn in which the tool is called and succeeds, and one in which the
provider does not answer. -/
def callsTool : Turn where
  reply := .response { toolCalls := [{ id := "1", name := "t" }] }
  tool := fun _ => .returned { ok := true, data := "x" }

def unanswered : Turn := { reply := .providerError { cls := .transient, message := "" } }

def toolRun (gaps : List (Gap St Exc)) (script : List Attempt) : List Obs :=
  (runCell toolCell script).heard turnNotes gaps {}

/-- Whether a note is a passage of this attempt. -/
def Obs.IsPassage (n : Nat) (q : Passage → List ModelMessage → Bool) : Obs → Prop
  | .passed id k p ms => id = "c" ∧ k = n ∧ q p ms
  | _ => False

instance (n : Nat) (q : Passage → List ModelMessage → Bool) (o : Obs) :
    Decidable (o.IsPassage n q) := by
  unfold Obs.IsPassage
  split <;> infer_instance

def Passage.isRound : Passage → List ModelMessage → Bool
  | .rounded, _ => true
  | _, _ => false

def Passage.isBeginning : Passage → List ModelMessage → Bool
  | .began, _ => true
  | _, _ => false

def Passage.isRetry (returned : Bool) : Passage → List ModelMessage → Bool
  | .retried text, _ => text.isSome = returned
  | _, _ => false

theorem Obs.IsPassage.exists {told : List Obs} {n : Nat} {q : Passage → List ModelMessage → Bool}
    (h : ∃ o ∈ told, o.IsPassage n q) : ∃ p ms, q p ms ∧ .passed toolCell.cell.id n p ms ∈ told := by
  obtain ⟨o, ho, hq⟩ := h
  unfold Obs.IsPassage at hq
  split at hq
  · obtain ⟨rfl, rfl, hq⟩ := hq
    exact ⟨_, _, hq, ho⟩
  · exact hq.elim

theorem AllTame.restoresHeaded {told : List Obs} (h : AllTame told) : RestoresHeaded told :=
  fun _ _ hm => (h _ hm).imp_right And.left

/-- The first attempt of a run completed a round, and the second began. -/
theorem round_and_next (told : List Obs) (returned : Bool)
    (hround : ∃ o ∈ told, o.IsPassage 0 Passage.isRound)
    (hretry : ∃ o ∈ told, o.IsPassage 0 (Passage.isRetry returned))
    (hbegun : ∃ o ∈ told, o.IsPassage 1 Passage.isBeginning) :
    ∃ rs p ms, p.isSome = returned ∧ RetriedRound toolCell told 0 rs p ∧
      NextBegun toolCell told 0 1 ms := by
  obtain ⟨p, rs, hp, hround⟩ := Obs.IsPassage.exists hround
  obtain ⟨p', cs, hp', hretry⟩ := Obs.IsPassage.exists hretry
  obtain ⟨p'', ms, hp'', hbegun⟩ := Obs.IsPassage.exists hbegun
  cases p with
  | rounded =>
    cases p' with
    | retried text =>
      cases p'' with
      | began =>
        refine ⟨rs, text, ms, by simpa [Passage.isRetry] using hp', ⟨hround, cs, hretry⟩, ?_⟩
        exact ⟨hbegun, Nat.zero_lt_one, fun j ms' _ hj => hj⟩
      | _ => cases hp''
    | _ => cases hp'
  | _ => cases hp

/-- A provider error behind a round: the next attempt begins with the round. -/
theorem rounds_carried_unanswered :
    let told := toolRun (List.replicate 60 ⟨id, .resume⟩)
      [attemptOf 100 [callsTool, unanswered], attemptOf 100 [repliesWith "done"]]
    ∃ rs p ms, p.isSome ∧ RetriedRound toolCell told 0 rs p ∧ NextBegun toolCell told 0 1 ms ∧
      Retains toolCell.estimate rs ms := by
  intro told
  have htame : AllTame told := by decide +kernel
  obtain ⟨rs, p, ms, hp, hround, hnext⟩ := round_and_next told true
    (by decide +kernel) (by decide +kernel) (by decide +kernel)
  refine ⟨rs, p, ms, hp, hround, hnext, ?_⟩
  exact (rounds_carried_iff toolCell _ _ _ rfl htame.restoresHeaded hround hnext).mpr ⟨hp, rfl⟩

/-- An exception behind a round: the next attempt begins anew. -/
theorem rounds_lost_to_exception :
    let told := toolRun (List.replicate 9 ⟨id, .resume⟩ ++ ⟨id, .raise (.exception .other "")⟩ ::
      List.replicate 60 ⟨id, .resume⟩)
      [attemptOf 100 [callsTool, repliesWith ""], attemptOf 100 [repliesWith "done"]]
    ∃ rs p ms, RetriedRound toolCell told 0 rs p ∧ NextBegun toolCell told 0 1 ms ∧
      ¬ Retains toolCell.estimate rs ms := by
  intro told
  have htame : AllTame told := by decide +kernel
  obtain ⟨rs, p, ms, hp, hround, hnext⟩ := round_and_next told false
    (by decide +kernel) (by decide +kernel) (by decide +kernel)
  refine ⟨rs, p, ms, hround, hnext, fun h => ?_⟩
  have hcarries := (roundsHandover toolCell).heard _ _ _ htame.restoresHeaded 0 1 rs p ms
  have hsome := ((hcarries hround hnext).mp h).1
  rw [hp] at hsome
  cases hsome

end Northstack
