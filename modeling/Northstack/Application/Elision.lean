import Mathlib
import Northstack.Application.Discipline
import Northstack.Core.Borders

/-!
# The elision note

After a compaction the objective says how many rounds were dropped. `_note_elision`
(worker.py:152-171) rewrites it: what stands before the sentinel is taken for the objective, and
the number is what the running attempt has dropped (`total_elided`, worker.py:697-730).

**Results.**
* `elisionNote_eq_iff`: when the rewritten objective is the prompt with the right number.
* `objective_annotated_iff`: in every run of a cell, whatever its attempts hand on, the objective
  is the prompt and one note of all that was dropped from the conversation, exactly if no
  compaction meets a prompt with the sentinel in it or rounds dropped in an earlier attempt.
-/
namespace Northstack

open Coop Trace Borders

/-! ## The text of the note -/

def elisionText (elided : Nat) : String :=
  s!" {elided} earlier tool round(s) were dropped to fit the model's context window. " ++
    "Re-read any file you need rather than relying on memory of it.]"

/-- What stands behind the prompt once so many rounds were dropped. -/
def dropNote (elided : Nat) : String :=
  if elided = 0 then "" else elisionSentinel ++ elisionText elided

theorem beforeFirst_eq (sep cs : List Char) : PyText.beforeFirst sep cs = before sep cs := by
  induction cs with
  | nil => rfl
  | cons c cs ih =>
    unfold PyText.beforeFirst before
    rw [ih]
    exact if_congr List.isPrefixOf_iff_prefix rfl rfl

theorem elisionNote_toList (content : String) (elided : Nat) :
    (elisionNote content elided).toList =
      before elisionSentinel.toList content.toList ++
        (elisionSentinel.toList ++ (elisionText elided).toList) := by
  unfold elisionNote elisionText
  rw [beforeFirst_eq]
  simp only [String.toList_append, String.toList_ofList, List.append_assoc]

theorem sentinel_unbordered : Unbordered elisionSentinel.toList := by decide +kernel

theorem sentinel_ne_nil : elisionSentinel.toList ≠ [] := by decide +kernel

/-- The text behind the number. -/
def elisionTail : List Char :=
  (" earlier tool round(s) were dropped to fit the model's context window. " ++
    "Re-read any file you need rather than relying on memory of it.]").toList

theorem elisionText_toList (n : Nat) :
    (elisionText n).toList = ' ' :: (Nat.toDigits 10 n ++ elisionTail) := by
  have hdigits : (toString n).toList = Nat.toDigits 10 n := String.toList_ofList
  unfold elisionText elisionTail
  simp only [String.toList_append, hdigits, List.append_assoc]
  rfl

theorem elisionText_injective {m n : Nat} (h : elisionText m = elisionText n) : m = n := by
  have hlists := congrArg String.toList h
  rw [elisionText_toList, elisionText_toList] at hlists
  exact PyText.toDigits_injective (List.append_cancel_right (List.cons.inj hlists).2)

/-- The note is one line behind the sentinel. -/
theorem newline_not_mem_elisionText (n : Nat) : '\n' ∉ (elisionText n).toList := by
  have htail : '\n' ∉ elisionTail := by decide +kernel
  have hdigits : '\n' ∉ Nat.toDigits 10 n := by
    intro hmem
    have hdigit := Nat.isDigit_of_mem_toDigits (by decide) (by decide) hmem
    cases hdigit
  rw [elisionText_toList, List.mem_cons, List.mem_append]
  intro h
  rcases h with hspace | hnumber | hrest
  · cases hspace
  · exact hdigits hnumber
  · exact htail hrest

/-- **The rewritten objective** is the prompt with a note of all that was dropped exactly if the
prompt has no sentinel and nothing was dropped before the count began. -/
theorem elisionNote_eq_iff (prompt : String) (noted earlier : Nat) {n : Nat} (hn : 0 < n) :
    elisionNote (prompt ++ dropNote noted) n = prompt ++ dropNote (earlier + n) ↔
      ¬ elisionSentinel.toList <:+: prompt.toList ∧ earlier = 0 := by
  have hnew : (prompt ++ dropNote (earlier + n)).toList = prompt.toList ++
      (elisionSentinel.toList ++ (elisionText (earlier + n)).toList) := by
    unfold dropNote
    rw [if_neg (by omega), String.toList_append, String.toList_append]
  rw [← String.toList_inj, elisionNote_toList, hnew, String.toList_append]
  by_cases hfound : elisionSentinel.toList <:+: prompt.toList
  · -- what is left of the prompt ends in front of a sentinel, and the note has no second one
    obtain ⟨rest, hrest⟩ := before_found sentinel_ne_nil hfound (dropNote noted).toList
    refine iff_of_false ?_ fun h => h.1 hfound
    intro heq
    obtain ⟨cut, hcut⟩ : ∃ cut, cut =
      before elisionSentinel.toList (prompt.toList ++ (dropNote noted).toList) := ⟨_, rfl⟩
    rw [← hcut] at hrest heq
    rw [hrest, List.append_assoc, List.append_assoc, List.append_cancel_left_eq,
      List.append_cancel_left_eq] at heq
    apply newline_not_mem_elisionText n
    rw [heq]
    apply List.mem_append_right
    apply List.mem_append_left
    decide +kernel
  · have hbase : before elisionSentinel.toList (prompt.toList ++ (dropNote noted).toList) =
        prompt.toList := by
      unfold dropNote
      split
      · rw [String.toList_empty, List.append_nil]
        exact before_missing hfound
      · rw [String.toList_append]
        exact before_insert sentinel_unbordered sentinel_ne_nil hfound _
    rw [hbase, List.append_cancel_left_eq, List.append_cancel_left_eq, String.toList_inj]
    constructor
    · intro heq
      have hsame := elisionText_injective heq
      exact ⟨hfound, by omega⟩
    · intro h
      rw [h.2, Nat.zero_add]

/-! ## The objective of a conversation -/

/-- The user's message behind the system's. -/
def objectiveOf (ms : List ModelMessage) : Option ModelMessage :=
  (ms.dropWhile (·.role = .system)).head?.filter (·.role = .user)

section Objective

variable {ms sys rest : List ModelMessage} {user : ModelMessage}

theorem objectiveOf_pinned (rest : List ModelMessage) (hsys : ∀ m ∈ sys, m.role = .system)
    (huser : user.role = .user) : objectiveOf (sys ++ user :: rest) = some user := by
  unfold objectiveOf
  rw [List.dropWhile_append_of_pos fun m hm => decide_eq_true (hsys m hm),
    List.dropWhile_cons_of_neg (by rw [huser]; decide), List.head?_cons, Option.filter_some,
    if_pos (decide_eq_true huser)]

theorem objectiveOf_split (h : objectiveOf ms = some user) :
    ∃ sys rest, ms = sys ++ user :: rest ∧ (∀ m ∈ sys, m.role = .system) ∧ user.role = .user := by
  unfold objectiveOf at h
  obtain ⟨hhead, hrole⟩ := Option.filter_eq_some_iff.mp h
  obtain ⟨rest, hrest⟩ := List.head?_eq_some_iff.mp hhead
  refine ⟨ms.takeWhile (·.role = .system), rest, ?_, ?_, of_decide_eq_true hrole⟩
  · rw [← hrest]
    exact List.takeWhile_append_dropWhile.symm
  · intro m hm
    have hp := List.mem_takeWhile_imp hm
    exact of_decide_eq_true hp

theorem mapIdx_eq_self {α : Type} {f : Nat → α → α} {xs : List α}
    (h : ∀ i, ∀ hi : i < xs.length, f i xs[i] = xs[i]) : xs.mapIdx f = xs := by
  refine List.ext_getElem (by simp) ?_
  intro i hi hi'
  rw [List.getElem_mapIdx]
  exact h i hi'

/-- The note is written on the objective and nowhere else. -/
theorem noteElision_pinned (rest : List ModelMessage) (hsys : ∀ m ∈ sys, m.role = .system)
    (huser : user.role = .user) (elided : Nat) :
    noteElision (sys ++ user :: rest) elided =
      sys ++ { user with content := elisionNote user.content elided } :: rest := by
  unfold noteElision
  dsimp only
  rw [pinnedLength_eq hsys huser, List.mapIdx_append, List.mapIdx_cons]
  congr 1
  · apply mapIdx_eq_self
    intro i hi
    rw [if_neg (by omega)]
  · congr 1
    · rw [if_pos ⟨by omega, huser⟩]
    · apply mapIdx_eq_self
      intro i hi
      rw [if_neg (by omega)]

end Objective

/-! ## What was dropped -/

/-- The prompt a conversation began with, and the rounds dropped from it: in earlier attempts,
and in this one. -/
structure Tally where
  prompt : String
  earlier : Nat := 0
  own : Nat := 0

def Tally.total (t : Tally) : Nat := t.earlier + t.own

/-- The objective is the prompt, unaltered, and one note of all that was dropped. -/
def Tally.Shown (t : Tally) (ms : List ModelMessage) : Prop :=
  (objectiveOf ms).map (·.content) = some (t.prompt ++ dropNote t.total)

instance (t : Tally) (ms : List ModelMessage) : Decidable (t.Shown ms) :=
  inferInstanceAs (Decidable (_ = _))

/-- The objective can be rewritten. -/
def Tally.Open (t : Tally) : Prop :=
  ¬ elisionSentinel.toList <:+: t.prompt.toList ∧ t.earlier = 0

instance (t : Tally) : Decidable t.Open := inferInstanceAs (Decidable (_ ∧ _))

/-- A cell's conversation begins with its prompt, or with a checkpoint that shows `origin`; an
attempt that hands on nothing is followed by a new one. -/
def noteTally (prompt : String) (origin t : Tally) : Obs → Tally
  | .restored _ ms =>
    if ms = [] then t else { prompt := origin.prompt, earlier := origin.total }
  | .passed _ _ (.compacted _ elided) _ => { t with own := t.own + elided }
  | .passed _ _ (.retried _) ms =>
    if ms = [] then { prompt := prompt } else { t with earlier := t.earlier + t.own, own := 0 }
  | _ => t

def tallyOf (prompt : String) (origin : Tally) (told : List Obs) : Tally :=
  told.foldl (noteTally prompt origin) { prompt := prompt }

/-- What a note holds of the conversation shows the tally; a failed attempt may leave none. -/
def Obs.Displays (t : Tally) : Obs → Prop
  | .requested _ _ ms => t.Shown ms
  | .passed _ _ (.retried _) ms => ms = [] ∨ t.Shown ms
  | .passed _ _ _ ms => t.Shown ms
  | _ => True

/-- Behind these notes, and counting this one. -/
def Obs.Shows (prompt : String) (origin : Tally) (told : List Obs) (o : Obs) : Prop :=
  o.Displays (tallyOf prompt origin (told ++ [o]))

/-- Behind these notes, if this one is of a compaction. -/
def Obs.Spares (prompt : String) (origin : Tally) (told : List Obs) : Obs → Prop
  | .passed _ _ (.compacted _ _) _ => (tallyOf prompt origin told).Open
  | _ => True

/-- A conversation from a checkpoint shows `origin`. -/
def Obs.Fits (origin : Tally) : Obs → Prop
  | .restored _ ms => ms = [] ∨ origin.Shown ms
  | _ => True

instance (t : Tally) (o : Obs) : Decidable (o.Displays t) :=
  decidable_of_iff ((match o with
    | .requested _ _ ms => decide (t.Shown ms)
    | .passed _ _ (.retried _) ms => decide (ms = [] ∨ t.Shown ms)
    | .passed _ _ _ ms => decide (t.Shown ms)
    | _ => true) = true) <| by
    unfold Obs.Displays
    split <;> simp

instance (prompt : String) (origin : Tally) (told : List Obs) (o : Obs) :
    Decidable (o.Shows prompt origin told) := inferInstanceAs (Decidable (o.Displays _))

instance (prompt : String) (origin : Tally) (told : List Obs) (o : Obs) :
    Decidable (o.Spares prompt origin told) :=
  decidable_of_iff ((match o with
    | .passed _ _ (.compacted _ _) _ => decide (tallyOf prompt origin told).Open
    | _ => true) = true) <| by
    unfold Obs.Spares
    split <;> simp

instance (origin : Tally) (o : Obs) : Decidable (o.Fits origin) :=
  decidable_of_iff ((match o with
    | .restored _ ms => decide (ms = [] ∨ origin.Shown ms)
    | _ => true) = true) <| by
    unfold Obs.Fits
    split <;> simp

/-! ## What keeps the note -/

/-- A note that neither begins a conversation nor drops from one. -/
def Obs.Quiet : Obs → Prop
  | .restored .. | .passed _ _ (.compacted _ _) _ | .passed _ _ (.retried _) _ => False
  | _ => True

/-- The condition held so far, and what came from a checkpoint fits. -/
structure Sound (prompt : String) (origin : Tally) (told : List Obs) : Prop where
  spares : Legal (Obs.Spares prompt origin) told
  fits : ∀ o ∈ told, o.Fits origin

/-- Up to the first compaction that does not meet the condition. -/
def Obs.Agrees (prompt : String) (origin : Tally) (told : List Obs) (o : Obs) : Prop :=
  Sound prompt origin told → (o.Shows prompt origin told ↔ o.Spares prompt origin told)

/-- A conversation that shows the tally, in an attempt that has counted its own part of it. -/
structure Conv.Annotated (t : Tally) (c : Conv) : Prop where
  shown : t.Shown c.messages
  counted : c.totalElided = t.own

/-- What a turn leaves: a conversation, or a result with what is handed on of it. -/
def Leaves (t : Tally) : WorkerResult ⊕ Conv → Prop
  | .inr c => c.Annotated t
  | .inl r => r.messages = [] ∨ t.Shown r.messages

/-- What an attempt may start from. -/
def Resumes (prompt : String) (t : Tally) : Option (List ModelMessage) → Prop
  | some (m :: ms) => t.Shown (m :: ms) ∧ t.own = 0
  | _ => t = { prompt := prompt }

section Annotating

variable {prompt : String} {origin t : Tally} {told notes : List Obs} {o : Obs}
  {ms more : List ModelMessage} {c c' : Conv} {w : WorkerInput} {profile : ModelProfile}
  {window : Nat} {turn : Turn} {ts : List Turn} {r : ModelResponse} {next : WorkerResult ⊕ Conv}

theorem tallyOf_snoc (told : List Obs) (o : Obs) : tallyOf prompt origin (told ++ [o]) =
    noteTally prompt origin (tallyOf prompt origin told) o := by
  unfold tallyOf
  rw [List.foldl_append, List.foldl_cons, List.foldl_nil]

theorem Obs.Quiet.note (h : o.Quiet) : noteTally prompt origin t o = t := by
  unfold noteTally
  split
  · cases h
  · cases h
  · cases h
  · rfl

theorem Obs.Quiet.spares (h : o.Quiet) : o.Spares prompt origin told := by
  unfold Obs.Spares
  split
  · cases h
  · trivial

theorem Sound.left (h : Sound prompt origin (told ++ notes)) : Sound prompt origin told where
  spares := h.spares.of_prefix (List.prefix_append told notes)
  fits o ho := h.fits o (List.mem_append_left _ ho)

/-- Quiet notes that show what was shown before them. -/
theorem agrees_quiet (hl : Legal (Obs.Agrees prompt origin) told) (hq : ∀ o ∈ notes, o.Quiet)
    (hs : Sound prompt origin told → ∀ o ∈ notes, o.Displays (tallyOf prompt origin told)) :
    Legal (Obs.Agrees prompt origin) (told ++ notes) ∧
      tallyOf prompt origin (told ++ notes) = tallyOf prompt origin told := by
  induction notes using List.reverseRecOn with
  | nil =>
    rw [List.append_nil]
    exact ⟨hl, rfl⟩
  | append_singleton notes o ih =>
    obtain ⟨hlegal, htally⟩ := ih (fun x hx => hq x (List.mem_append_left _ hx))
      fun h x hx => hs h x (List.mem_append_left _ hx)
    have hquiet : o.Quiet := hq o (by simp)
    have hsame : tallyOf prompt origin (told ++ notes ++ [o]) = tallyOf prompt origin told := by
      rw [tallyOf_snoc, hquiet.note, htally]
    rw [← List.append_assoc]
    refine ⟨.snoc hlegal ?_, hsame⟩
    intro hsound
    refine iff_of_true ?_ hquiet.spares
    unfold Obs.Shows
    rw [hsame]
    exact hs hsound.left o (by simp)

theorem Tally.Shown.append (h : t.Shown ms) (more : List ModelMessage) : t.Shown (ms ++ more) := by
  unfold Tally.Shown at h ⊢
  obtain ⟨user, huser, hcontent⟩ := Option.map_eq_some_iff.mp h
  obtain ⟨sys, rest, rfl, hsys, hrole⟩ := objectiveOf_split huser
  rw [List.append_assoc, List.cons_append, objectiveOf_pinned _ hsys hrole]
  exact congrArg some hcontent

theorem Conv.Annotated.append (h : c.Annotated t) (hm : c'.messages = c.messages ++ more)
    (he : c'.totalElided = c.totalElided) : c'.Annotated t where
  shown := hm ▸ h.shown.append more
  counted := he.trans h.counted

theorem Conv.Annotated.same (h : c.Annotated t) (hm : c'.messages = c.messages)
    (he : c'.totalElided = c.totalElided) : c'.Annotated t where
  shown := hm ▸ h.shown
  counted := he.trans h.counted

/-! ## One turn -/

/-- **A compaction** leaves the right note exactly if it meets the condition. -/
theorem Compacted.agrees (h : Compacted w window c notes c')
    (hl : Legal (Obs.Agrees prompt origin) told)
    (hc : Sound prompt origin told → c.Annotated (tallyOf prompt origin told)) :
    Legal (Obs.Agrees prompt origin) (told ++ notes) ∧ (Sound prompt origin (told ++ notes) →
      c'.Annotated (tallyOf prompt origin (told ++ notes))) := by
  cases h with
  | kept =>
    rw [List.append_nil]
    exact ⟨hl, hc⟩
  | @elided messages elided h =>
    have hagrees : Obs.Agrees prompt origin told (w.passed (.compacted c.messages (elided + 1))
        (noteElision messages (c.totalElided + (elided + 1)))) := by
      intro hsound
      obtain ⟨hshown, hcounted⟩ := hc hsound
      obtain ⟨user, huser, hcontent⟩ := Option.map_eq_some_iff.mp hshown
      obtain ⟨sys, rest, hsplit, hsys, hrole⟩ := objectiveOf_split huser
      obtain ⟨n, -, hleft⟩ := compactMessages_left rest hsys hrole w.estimate window
      rw [hsplit, hleft] at h
      obtain ⟨rfl, -⟩ := Prod.mk.inj h
      unfold Obs.Shows
      rw [tallyOf_snoc]
      show Tally.Shown _ (noteElision _ _) ↔ _
      unfold Tally.Shown
      rw [noteElision_pinned _ hsys hrole, objectiveOf_pinned _ hsys (by exact hrole), hcounted]
      show some (elisionNote user.content _) = _ ↔ _
      rw [Option.some_inj, hcontent]
      have hnote := elisionNote_eq_iff (tallyOf prompt origin told).prompt
        (tallyOf prompt origin told).total (tallyOf prompt origin told).earlier
        (Nat.succ_pos ((tallyOf prompt origin told).own + elided))
      exact hnote
    refine ⟨.snoc hl hagrees, ?_⟩
    intro hsound
    have hshows := (hagrees hsound.left).mpr hsound.spares.last
    refine ⟨hshows, ?_⟩
    rw [tallyOf_snoc]
    show c.totalElided + (elided + 1) = (tallyOf prompt origin told).own + (elided + 1)
    rw [(hc hsound.left).counted]

theorem afterText_totalElided (h : Worker.afterText w profile r c = .inr c') :
    c'.totalElided = c.totalElided := by
  unfold Worker.afterText at h
  dsimp only at h
  split at h
  · split at h
    · split at h
      · cases h
      · split at h
        · cases h
        · cases h
          rfl
    · split at h <;> cases h
  · split at h
    · split at h
      · cases h
      · split at h
        · cases h
          rfl
        · cases h
          rfl
    · cases h

/-- The conversation goes on behind an answer. -/
theorem afterText_annotated (hc : c.Annotated t) (h : Worker.afterText w profile r c = .inr c') :
    c'.Annotated t := by
  have helided := afterText_totalElided h
  obtain ⟨-, h⟩ := afterText_inr h
  rcases h with ⟨-, -, -, -, nudge, hm⟩ | ⟨-, -, -, -, hm⟩
  · exact hc.append hm helided
  · rw [List.append_assoc] at hm
    exact hc.append hm helided

theorem called_annotated (hc : c.Annotated t) : (c.called r).Annotated t := hc.append rfl rfl

theorem answered_annotated (hc : c.Annotated t) (turn : Turn) (calls : List (ToolCall × Nat)) :
    (answerCalls w turn calls c).2.Annotated t := by
  rw [answerCalls_conv]
  exact hc.append rfl rfl

theorem answers_displayed (hc : c.Annotated t) (turn : Turn) (calls : List (ToolCall × Nat)) :
    ∀ o ∈ (answerCalls w turn calls c).1, o.Quiet ∧ o.Displays t := by
  intro o ho
  obtain ⟨result, more, rfl⟩ := answerCalls_notes turn calls c o ho
  exact ⟨trivial, hc.shown.append more⟩

/-- The notes behind a response show what the request showed. -/
theorem Replied.displayed (h : Replied w profile turn r c notes next) (hc : c.Annotated t) :
    (∀ o ∈ notes, o.Displays t) ∧ Leaves t next := by
  have hcharged : (c.charged profile r).Annotated t := hc.same rfl rfl
  cases h with
  | @ended result hcalls h =>
    constructor
    · intro o ho
      rw [List.mem_singleton.mp ho]
      trivial
    · obtain ⟨-, hm⟩ := afterText_inl h
      unfold Conv.withFinal at hm
      right
      rw [hm]
      split
      · exact hcharged.shown
      · exact hcharged.shown.append _
  | continued hcalls h =>
    refine ⟨?_, afterText_annotated hcharged h⟩
    intro o ho
    rcases List.mem_cons.mp ho with rfl | ho
    · trivial
    · rw [List.mem_singleton.mp ho]
      exact hc.shown
  | cut h =>
    refine ⟨?_, .inr (answered_annotated (called_annotated hcharged) _ _).shown⟩
    intro o ho
    rcases List.mem_cons.mp ho with rfl | ho
    · trivial
    · exact (answers_displayed (called_annotated hcharged) _ _ o ho).2
  | @round answered hcalls h =>
    subst h
    have hanswered := answered_annotated (w := w) (called_annotated (r := r) hcharged) turn
      r.toolCalls.zipIdx
    refine ⟨?_, hanswered.same rfl rfl⟩
    intro o ho
    rcases List.mem_cons.mp ho with rfl | ho
    · trivial
    rcases List.mem_append.mp ho with ho | ho
    · exact (answers_displayed (called_annotated hcharged) _ _ o ho).2
    · rw [List.mem_singleton.mp ho]
      exact hanswered.shown

theorem Replied.quiet (h : Replied w profile turn r c notes next) : ∀ o ∈ notes, o.Quiet := by
  have hanswers (calls : List (ToolCall × Nat)) (c : Conv) :
      ∀ o ∈ (answerCalls w turn calls c).1, o.Quiet := by
    intro o ho
    obtain ⟨result, ms, rfl⟩ := answerCalls_notes turn calls c o ho
    trivial
  cases h with
  | ended =>
    intro o ho
    rw [List.mem_singleton.mp ho]
    trivial
  | continued =>
    intro o ho
    rcases List.mem_cons.mp ho with rfl | ho
    · trivial
    · rw [List.mem_singleton.mp ho]
      trivial
  | cut =>
    intro o ho
    rcases List.mem_cons.mp ho with rfl | ho
    · trivial
    · exact hanswers _ _ o ho
  | round hcalls h =>
    subst h
    intro o ho
    rcases List.mem_cons.mp ho with rfl | ho
    · trivial
    rcases List.mem_append.mp ho with ho | ho
    · exact hanswers _ _ o ho
    · rw [List.mem_singleton.mp ho]
      trivial

theorem Sent.quiet (h : Sent w profile turn c notes next) : ∀ o ∈ notes, o.Quiet := by
  cases h with
  | starved => exact List.forall_mem_nil _
  | unanswered => simp [Obs.Quiet, WorkerInput.passed]
  | answered hout hr hnext =>
    intro o ho
    rcases List.mem_cons.mp ho with rfl | ho
    · trivial
    rcases List.mem_cons.mp ho with rfl | ho
    · trivial
    · exact hnext.quiet o ho

/-- Behind its compaction a turn shows what the conversation showed. -/
theorem Sent.displayed (h : Sent w profile turn c notes next) (hc : c.Annotated t) :
    (∀ o ∈ notes, o.Displays t) ∧ Leaves t next := by
  cases h with
  | starved => exact ⟨List.forall_mem_nil _, .inr hc.shown⟩
  | unanswered =>
    refine ⟨?_, .inr hc.shown⟩
    simpa [Obs.Displays, WorkerInput.passed] using hc.shown
  | answered hout hr hnext =>
    obtain ⟨hdisplays, hleaves⟩ := hnext.displayed (hc.same rfl rfl)
    refine ⟨?_, hleaves⟩
    intro o ho
    rcases List.mem_cons.mp ho with rfl | ho
    · exact hc.shown
    rcases List.mem_cons.mp ho with rfl | ho
    · exact hc.shown
    · exact hdisplays o ho

theorem Turned.agrees (h : Turned w profile turn c notes next)
    (hl : Legal (Obs.Agrees prompt origin) told)
    (hc : Sound prompt origin told → c.Annotated (tallyOf prompt origin told)) :
    Legal (Obs.Agrees prompt origin) (told ++ notes) ∧ (Sound prompt origin (told ++ notes) →
      Leaves (tallyOf prompt origin (told ++ notes)) next) := by
  cases h with
  | stopped =>
    rw [List.append_nil]
    exact ⟨hl, fun hsound => .inr (hc hsound).shown⟩
  | @went c' notes notes' _ hbudget hcompact hs =>
    have hturn (hsound : Sound prompt origin told) :
        Conv.Annotated (tallyOf prompt origin told) { c with turn := c.turn + 1 } :=
      (hc hsound).same rfl rfl
    obtain ⟨hlegal, hc'⟩ := hcompact.agrees hl hturn
    obtain ⟨hagrees, htally⟩ := agrees_quiet hlegal hs.quiet
      fun hsound => (hs.displayed (hc' hsound)).1
    rw [← List.append_assoc]
    refine ⟨hagrees, ?_⟩
    intro hsound
    rw [htally]
    exact (hs.displayed (hc' hsound.left)).2

/-! ## Attempts -/

theorem Looped.agrees {result : Option WorkerResult} (h : Looped w profile ts c notes result)
    (hl : Legal (Obs.Agrees prompt origin) told)
    (hc : Sound prompt origin told → c.Annotated (tallyOf prompt origin told)) :
    Legal (Obs.Agrees prompt origin) (told ++ notes) ∧
      ∀ r ∈ result, Sound prompt origin (told ++ notes) →
        Leaves (tallyOf prompt origin (told ++ notes)) (.inl r) := by
  induction h generalizing told with
  | out c =>
    rw [List.append_nil]
    exact ⟨hl, by simp⟩
  | last h =>
    obtain ⟨hlegal, hleaves⟩ := h.agrees hl hc
    refine ⟨hlegal, ?_⟩
    intro r hr
    cases hr
    exact hleaves
  | more h _ ih =>
    obtain ⟨hlegal, hleaves⟩ := h.agrees hl hc
    rw [← List.append_assoc]
    exact ih hlegal hleaves

/-- What an attempt starts from shows what was handed on. -/
theorem initial_annotated {resume : Option (List ModelMessage)} (hprompt : w.userPrompt = prompt)
    (h : Resumes prompt t resume) :
    Conv.Annotated t { messages := Worker.initialMessages w resume } := by
  have hfresh (ht : t = { prompt := prompt }) : Conv.Annotated t { messages :=
      (if w.systemPrompt = "" then [] else [{ role := .system, content := w.systemPrompt }]) ++
        [{ role := .user, content := w.userPrompt }] } := by
    subst ht
    refine ⟨?_, rfl⟩
    unfold Tally.Shown
    rw [objectiveOf_pinned [] (by split <;> simp) rfl, hprompt]
    exact congrArg some (String.append_empty).symm
  cases resume with
  | none => exact hfresh h
  | some ms =>
    cases ms with
    | nil => exact hfresh h
    | cons m ms => exact ⟨h.1, h.2.symm⟩

theorem Worked.agrees {a : Attempt} {resume : Option (List ModelMessage)}
    {result : Option WorkerResult} (hprompt : w.userPrompt = prompt)
    (h : Worked w a resume notes result) (hl : Legal (Obs.Agrees prompt origin) told)
    (hb : Sound prompt origin told → Resumes prompt (tallyOf prompt origin told) resume) :
    Legal (Obs.Agrees prompt origin) (told ++ notes) ∧
      ∀ r ∈ result, Sound prompt origin (told ++ notes) →
        Leaves (tallyOf prompt origin (told ++ notes)) (.inl r) := by
  cases h with
  | unresolved =>
    rw [List.append_nil]
    refine ⟨hl, ?_⟩
    intro r hr
    cases hr
    exact fun _ => .inl rfl
  | looped hprofile hs =>
    have hinitial (hsound : Sound prompt origin told) :
        Conv.Annotated (tallyOf prompt origin told)
          { messages := Worker.initialMessages w resume } :=
      initial_annotated hprompt (hb hsound)
    have hquiet : ∀ o ∈ [w.passed .began (Worker.initialMessages w resume)], o.Quiet := by
      simp [Obs.Quiet, WorkerInput.passed]
    obtain ⟨hlegal, htally⟩ := agrees_quiet hl hquiet fun hsound => by
      simpa [Obs.Displays, WorkerInput.passed] using (hinitial hsound).shown
    rw [← List.singleton_append, ← List.append_assoc]
    refine hs.agrees hlegal ?_
    intro hsound
    rw [htally]
    exact hinitial hsound.left

end Annotating

/-! ## Every run of a cell -/

/-- What a cell's attempts hand on shows what was dropped so far. -/
def elisionHandover (c : CellInput) (origin : Tally) : Handover c where
  keeps := Legal (Obs.Agrees c.userPrompt origin)
  before _ resume told := Sound c.userPrompt origin told →
    Resumes c.userPrompt (tallyOf c.userPrompt origin told) resume
  behind _ result told := ∀ r ∈ result, Sound c.userPrompt origin told →
    Leaves (tallyOf c.userPrompt origin told) (.inl r)
  fresh := ⟨.nil, fun _ => rfl⟩
  restored ms := by
    refine ⟨.snoc .nil fun _ => iff_of_true trivial trivial, ?_⟩
    intro hsound
    cases ms with
    | nil => rfl
    | cons m ms =>
      rcases hsound.fits _ (List.mem_singleton.mpr rfl) with hnil | hshown
      · cases hnil
      · exact ⟨hshown, rfl⟩
  attempt hb hk hworked := by
    obtain ⟨hlegal, hleaves⟩ := hworked.agrees rfl hk hb
    refine ⟨fun p hp => ⟨?_, by simp⟩, ?_⟩
    · exact hlegal.of_prefix ((List.prefix_append_right_inj _).mpr hp)
    · intro r hr r' hr'
      cases hr'
      exact hleaves r hr
  handed {n r told} hr hk _ _ := by
    have hagrees : Obs.Agrees c.userPrompt origin told
        (.passed c.cell.id n (.retried (some r.text)) r.messages) := by
      intro hsound
      refine iff_of_true ?_ trivial
      unfold Obs.Shows
      rw [tallyOf_snoc]
      rcases hr r rfl hsound with hnil | hshown
      · exact .inl hnil
      · right
        unfold noteTally
        dsimp only
        split
        · rename_i hnil
          rw [hnil] at hshown
          cases hshown
        · exact hshown
    refine ⟨.snoc hk hagrees, ?_⟩
    intro hsound
    rw [tallyOf_snoc]
    unfold carriedOf noteTally
    dsimp only
    split
    · rfl
    · rename_i hne
      obtain ⟨m, ms, hms⟩ := List.exists_cons_of_ne_nil hne
      rcases hr r rfl hsound.left with hnil | hshown
      · exact absurd hnil hne
      · rw [hms] at hshown ⊢
        exact ⟨hshown, rfl⟩
  raised {n told} _ hk := by
    have hagrees : Obs.Agrees c.userPrompt origin told (.passed c.cell.id n (.retried none) []) :=
      fun _ => iff_of_true (.inl rfl) trivial
    refine ⟨.snoc hk hagrees, ?_⟩
    intro _
    rw [tallyOf_snoc]
    rfl

theorem shows_iff_spares {prompt : String} {origin : Tally} {notes : List Obs}
    (h : Legal (Obs.Agrees prompt origin) notes) (hfits : ∀ o ∈ notes, o.Fits origin) :
    Legal (Obs.Shows prompt origin) notes ↔ Legal (Obs.Spares prompt origin) notes := by
  induction h with
  | nil => exact iff_of_true .nil .nil
  | @snoc told o _ hagrees ih =>
    have hfits' : ∀ x ∈ told, x.Fits origin := fun x hx => hfits x (List.mem_append_left _ hx)
    have hih := ih hfits'
    constructor
    · intro hl
      have hspares := hih.mp (hl.of_prefix (List.prefix_append told [o]))
      exact .snoc hspares ((hagrees ⟨hspares, hfits'⟩).mp hl.last)
    · intro hl
      have hspares := hl.of_prefix (List.prefix_append told [o])
      exact .snoc (hih.mpr hspares) ((hagrees ⟨hspares, hfits'⟩).mpr hl.last)

/-- **The elision note.** In every run of a cell, whatever its attempts do and hand on, each note
shows an objective that is the prompt, unaltered, with one note of all rounds dropped from the
conversation, exactly if each compaction meets a prompt without the sentinel, and none dropped
before its attempt. A checkpoint's conversation may begin with any prompt and number. -/
theorem objective_annotated_iff (c : CellInput) (script : List Attempt) (gaps : List (Gap St Exc))
    (s : St) (origin : Tally)
    (hfits : ∀ o ∈ (CellRunner.runCell c script).heard turnNotes gaps s, o.Fits origin) :
    Legal (Obs.Shows c.userPrompt origin)
        ((CellRunner.runCell c script).heard turnNotes gaps s) ↔
      Legal (Obs.Spares c.userPrompt origin)
        ((CellRunner.runCell c script).heard turnNotes gaps s) :=
  shows_iff_spares ((elisionHandover c origin).heard script gaps s) hfits

/-- A cell whose model calls an unknown tool turn after turn. -/
def promptCell (prompt : String) : CellInput := { turnCell [] with userPrompt := prompt }

def heardOn (prompt : String) (script : List Attempt) : List Obs :=
  (CellRunner.runCell (promptCell prompt) script).heard turnNotes
    (List.replicate 80 ⟨id, .resume⟩) {}

/-- Four rounds, the first of which is dropped before the fifth turn. -/
def fourRounds (last : Turn) : List Turn := List.replicate 4 callsUnknown ++ [last]

def refused : Turn := { reply := .providerError { cls := .transient, message := "" } }

/-- One attempt with a compaction. -/
theorem objective_annotated_once :
    Legal (Obs.Shows "Fix it." { prompt := "Fix it." })
      (heardOn "Fix it." [attemptOf 8 (fourRounds (repliesWith "done"))]) := by
  have hspares : Legal (Obs.Spares "Fix it." { prompt := "Fix it." })
      (heardOn "Fix it." [attemptOf 8 (fourRounds (repliesWith "done"))]) := by
    decide +kernel
  refine (objective_annotated_iff (promptCell "Fix it.") _ _ _ _ ?_).mpr hspares
  decide +kernel

/-- A second attempt that drops a round counts it alone; a prompt that has the sentinel is cut. -/
theorem objective_misstated :
    ¬ Legal (Obs.Shows "Fix it." { prompt := "Fix it." })
      (heardOn "Fix it." [attemptOf 8 (fourRounds refused),
        attemptOf 8 [callsUnknown, repliesWith "done"]]) ∧
    ¬ Legal (Obs.Shows "Explain:\n\n[context management: off]" { prompt := "" })
      (heardOn "Explain:\n\n[context management: off]"
        [attemptOf 8 (fourRounds (repliesWith "done"))]) := by
  constructor <;> decide +kernel

end Northstack
