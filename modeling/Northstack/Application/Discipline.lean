import Mathlib
import Northstack.Application.Allowances
import Northstack.Application.Handovers
import Northstack.Core.Trace

/-!
# The turns of a conversation

Providers want the turns of a request to alternate: no two of the user's in a
row, and none of the model's own at the end. Whether a conversation does depends
on its roles alone.

**Results.**
* `Turned.disciplined`: what one turn does to a conversation that alternates.
* `requests_disciplined`: in every run of a cell each request alternates, unless
  an empty text was cut off behind a turn of the user's, compaction stopped in
  front of one, or an attempt that left a text was tried again.
-/
namespace Northstack

open Coop Trace

/-! ## Roles -/

def rolesOf (ms : List ModelMessage) : List MessageRole := ms.map (·.role)

theorem rolesOf_append (ms ns : List ModelMessage) :
    rolesOf (ms ++ ns) = rolesOf ms ++ rolesOf ns := List.map_append

/-- No two turns of the user's stand in a row. -/
def Alternates (rs : List MessageRole) : Prop := rs.IsChain fun a b => a = .user → b ≠ .user

/-- The system's messages come first, and the objective behind them. -/
def Headed (rs : List MessageRole) : Prop :=
  (rs.dropWhile (· = .system)).head? = some .user

/-- The last turn is not the model's. -/
def AwaitsModel (rs : List MessageRole) : Prop :=
  rs.getLast? = some .user ∨ rs.getLast? = some .tool

instance (rs : List MessageRole) : Decidable (Alternates rs) :=
  inferInstanceAs (Decidable (List.IsChain _ _))

instance (rs : List MessageRole) : Decidable (Headed rs) := inferInstanceAs (Decidable (_ = _))

instance (rs : List MessageRole) : Decidable (AwaitsModel rs) :=
  inferInstanceAs (Decidable (_ ∨ _))

/-- The turn discipline of a request. -/
structure Disciplined (ms : List ModelMessage) : Prop where
  alternates : Alternates (rolesOf ms)
  awaits : AwaitsModel (rolesOf ms)

instance (ms : List ModelMessage) : Decidable (Disciplined ms) :=
  decidable_of_iff (Alternates (rolesOf ms) ∧ AwaitsModel (rolesOf ms))
    ⟨fun h => ⟨h.1, h.2⟩, fun h => ⟨h.alternates, h.awaits⟩⟩

section Roles

variable {rs rs' : List MessageRole} {ms : List ModelMessage}

theorem Alternates.append (h : Alternates rs) (h' : Alternates rs')
    (hj : rs.getLast? = some .user → rs'.head? ≠ some .user) : Alternates (rs ++ rs') := by
  refine List.IsChain.append h h' fun a ha b hb hu => ?_
  rintro rfl
  exact hj (hu ▸ ha) hb

/-- Turns among which none is the user's. -/
theorem alternates_of_ne (h : ∀ r ∈ rs, r ≠ .user) : Alternates rs := by
  induction rs with
  | nil => exact .nil
  | cons r rs ih =>
    refine List.IsChain.cons (ih fun x hx => h x (List.mem_cons_of_mem _ hx)) fun y _ hu => ?_
    exact absurd hu (h r List.mem_cons_self)

theorem Headed.append (h : Headed rs) (rs' : List MessageRole) : Headed (rs ++ rs') := by
  unfold Headed at h ⊢
  have hne : rs.dropWhile (· = .system) ≠ [] := by
    intro he
    rw [he] at h
    cases h
  rw [List.dropWhile_append, if_neg (by simpa using hne), List.head?_append_of_ne_nil _ hne]
  exact h

theorem AwaitsModel.ne_nil (h : AwaitsModel rs) : rs ≠ [] := by
  rintro rfl
  rcases h with h | h <;> cases h

/-- The messages in front of the objective, the objective, and the rest. -/
theorem Headed.split (h : Headed (rolesOf ms)) : ∃ sys user rest, ms = sys ++ user :: rest ∧
    (∀ m ∈ sys, m.role = .system) ∧ user.role = .user := by
  unfold Headed rolesOf at h
  rw [List.dropWhile_map, List.head?_map, Option.map_eq_some_iff] at h
  obtain ⟨user, huser, hrole⟩ := h
  obtain ⟨rest, hrest⟩ := List.head?_eq_some_iff.mp huser
  refine ⟨ms.takeWhile (fun m => m.role = .system), user, rest, ?_, fun m hm => ?_, hrole⟩
  · rw [← hrest]
    exact List.takeWhile_append_dropWhile.symm
  · simpa using List.mem_takeWhile_imp hm

theorem headed_of_split {sys rest : List ModelMessage} {user : ModelMessage}
    (hsys : ∀ m ∈ sys, m.role = .system) (huser : user.role = .user) :
    Headed (rolesOf (sys ++ user :: rest)) := by
  unfold Headed rolesOf
  rw [List.map_append, List.dropWhile_append_of_pos, List.map_cons, huser]
  · rfl
  · intro r hr
    obtain ⟨m, hm, rfl⟩ := List.mem_map.mp hr
    exact decide_eq_true (hsys m hm)

theorem rolesOf_noteElision (ms : List ModelMessage) (elided : Nat) :
    rolesOf (noteElision ms elided) = rolesOf ms := by
  unfold rolesOf noteElision
  refine List.ext_getElem (by simp) fun i hi hi' => ?_
  simp only [List.getElem_mapIdx, List.getElem_map]
  split <;> rfl

end Roles

/-! ## What keeps the discipline -/

/-- What compaction leaves first behind the objective. -/
def survivor (whole : List ModelMessage) (elided : Nat) : Option ModelMessage :=
  ((spans (whole.drop (pinnedLength whole))).drop elided).flatten.head?

/-- A checkpoint holds a conversation that alternates, compaction does not stop
in front of a turn of the user's, an empty text is cut off behind a turn of the
tools', and an attempt that is tried again has left no text. -/
def Obs.Tame : Obs → Prop
  | .restored _ ms => ms = [] ∨ Headed (rolesOf ms) ∧ Disciplined ms
  | .passed _ _ (.compacted whole elided) _ => ∀ m ∈ survivor whole elided, m.role ≠ .user
  | .passed _ _ (.continued text repair) ms =>
    repair = true ∨ text ≠ "" ∨ (rolesOf ms).getLast? ≠ some .user
  | .passed _ _ (.retried (some text)) _ => text = ""
  | _ => True

/-- A request alternates, and so does what a round leaves for the checkpoint. -/
def Obs.Disciplined : Obs → Prop
  | .requested _ _ ms => Northstack.Disciplined ms
  | .passed _ _ .rounded ms => Headed (rolesOf ms) ∧ Northstack.Disciplined ms
  | _ => True

/-- Behind tame notes. -/
def Obs.Follows (told : List Obs) (o : Obs) : Prop := (∀ x ∈ told, x.Tame) → o.Disciplined

/-- A conversation between two turns. -/
structure Conv.Good (c : Conv) : Prop where
  headed : Headed (rolesOf c.messages)
  disciplined : Disciplined c.messages

/-- What a turn leaves: a conversation, or a result that another attempt may go
on with. -/
def NextGood : WorkerResult ⊕ Conv → Prop
  | .inr c => c.Good
  | .inl r => r.text = "" → r.errorKind ≠ "budget" → r.messages = [] ∨
      Headed (rolesOf r.messages) ∧ Disciplined r.messages

section Turns

variable {w : WorkerInput} {profile : ModelProfile} {window : Nat} {t : Turn} {ts : List Turn}
  {r : ModelResponse} {c c' : Conv} {told notes : List Obs} {next : WorkerResult ⊕ Conv}

/-- Turns that join behind the user's or a tool's. -/
theorem Conv.Good.append {ms : List ModelMessage} (h : c.Good) (hm : c'.messages = c.messages ++ ms)
    (ha : Alternates (rolesOf ms)) (hlast : AwaitsModel (rolesOf ms))
    (hj : (rolesOf c.messages).getLast? = some .user → (rolesOf ms).head? ≠ some .user) :
    c'.Good := by
  refine ⟨?_, ?_, ?_⟩
  · rw [hm, rolesOf_append]
    exact h.headed.append _
  · rw [hm, rolesOf_append]
    exact h.disciplined.alternates.append ha hj
  · have hne := hlast.ne_nil
    unfold AwaitsModel at hlast ⊢
    rw [hm, rolesOf_append, List.getLast?_append_of_ne_nil _ hne]
    exact hlast

theorem Conv.Good.of_messages (h : c.Good) (hm : c'.messages = c.messages) : c'.Good :=
  ⟨hm ▸ h.headed, hm ▸ h.disciplined⟩

/-- Compaction leaves the objective and the last spans. -/
theorem Conv.Good.compacted {messages : List ModelMessage} {elided total : Nat} (h : c.Good)
    (hcompact : compactMessages w.estimate window c.messages = (messages, elided))
    (hs : ∀ m ∈ survivor c.messages elided, m.role ≠ .user)
    (hm : c'.messages = noteElision messages total) : c'.Good := by
  obtain ⟨sys, user, rest, hsplit, hsys, huser⟩ := h.headed.split
  obtain ⟨n, -, hleft⟩ := compactMessages_left rest hsys huser w.estimate window
  rw [hsplit, hleft] at hcompact
  obtain ⟨rfl, rfl⟩ := Prod.mk.inj hcompact
  obtain ⟨left, hl⟩ : ∃ left, left = ((spans rest).drop n).flatten := ⟨_, rfl⟩
  have hrest : rest = ((spans rest).take n).flatten ++ left := by
    rw [hl, ← List.flatten_append, List.take_append_drop, spans_flatten]
  unfold survivor at hs
  rw [hsplit, pinnedLength_eq hsys huser, ← Nat.add_zero (sys.length + 1), drop_pinned,
    List.drop_zero, ← hl] at hs
  rw [← hl] at hm
  have hroles : rolesOf c'.messages = rolesOf (sys ++ [user]) ++ rolesOf left := by
    rw [hm, rolesOf_noteElision, ← rolesOf_append, List.append_assoc, List.singleton_append]
  have hwhole : rolesOf c.messages = rolesOf (sys ++ [user]) ++
      (rolesOf ((spans rest).take n).flatten ++ rolesOf left) := by
    rw [hsplit, ← rolesOf_append, ← hrest, ← rolesOf_append, List.append_assoc,
      List.singleton_append]
  obtain ⟨halt, hlast⟩ := h.disciplined
  rw [hwhole] at halt hlast
  refine ⟨?_, ?_, ?_⟩
  · rw [hm, rolesOf_noteElision]
    exact headed_of_split hsys huser
  · rw [hroles]
    refine Alternates.append halt.left_of_append halt.right_of_append.right_of_append fun _ => ?_
    intro hhead
    unfold rolesOf at hhead
    rw [List.head?_map, Option.map_eq_some_iff] at hhead
    obtain ⟨m, hm, hrole⟩ := hhead
    exact hs m hm hrole
  · rw [hroles]
    by_cases hnil : rolesOf left = []
    · rw [hnil, List.append_nil]
      refine .inl ?_
      unfold rolesOf
      rw [List.map_append, List.map_singleton, List.getLast?_concat, huser]
    · unfold AwaitsModel at hlast ⊢
      rw [List.getLast?_append_of_ne_nil _ (List.append_ne_nil_of_right_ne_nil _ hnil),
        List.getLast?_append_of_ne_nil _ hnil] at hlast
      rw [List.getLast?_append_of_ne_nil _ hnil]
      exact hlast

/-- The notes are all tame. -/
def AllTame (told : List Obs) : Prop := ∀ o ∈ told, o.Tame

theorem AllTame.left (h : AllTame (told ++ notes)) : AllTame told :=
  fun o ho => h o (List.mem_append_left _ ho)

theorem AllTame.right (h : AllTame (told ++ notes)) : AllTame notes :=
  fun o ho => h o (List.mem_append_right _ ho)

/-- Notes that ask for nothing. -/
theorem follows_append (hl : Legal Obs.Follows told) (hn : ∀ o ∈ notes, o.Disciplined) :
    Legal Obs.Follows (told ++ notes) :=
  hl.append fun _ o ho _ => hn o ho

theorem Compacted.good (h : Compacted w window c notes c') (hc : c.Good) (ht : AllTame notes) :
    c'.Good := by
  cases h with
  | kept => exact hc
  | elided h => exact hc.compacted h (ht _ (List.mem_singleton.mpr rfl)) rfl

theorem Compacted.disciplined (h : Compacted w window c notes c') :
    ∀ o ∈ notes, o.Disciplined := by
  cases h with
  | kept => exact List.forall_mem_nil _
  | elided =>
    intro o ho
    rw [List.mem_singleton.mp ho]
    trivial

/-- Another turn goes on behind an answer. -/
theorem afterText_good (hc : c.Good) (h : Worker.afterText w profile r c = .inr c')
    (ht : w.outputSchema = true ∨ r.text ≠ "" ∨ (rolesOf c.messages).getLast? ≠ some .user) :
    c'.Good := by
  obtain ⟨-, h⟩ := afterText_inr h
  rcases h with ⟨-, -, -, -, prompt, hm⟩ | ⟨hs, -, -, -, hm⟩
  · exact hc.append hm (by simp [rolesOf, Alternates]) (.inl rfl) fun _ => by simp [rolesOf]
  · by_cases htext : r.text = ""
    · rw [if_pos htext, List.append_nil] at hm
      refine hc.append hm (by simp [rolesOf, Alternates]) (.inl rfl) fun hu => ?_
      rcases ht with ht | ht | ht
      · rw [hs] at ht
        cases ht
      · exact absurd htext ht
      · exact absurd hu ht
    · rw [if_neg htext, List.append_assoc, List.singleton_append] at hm
      exact hc.append hm (by simp [rolesOf, Alternates]) (.inl rfl) fun _ => by simp [rolesOf]

/-- A round of tools goes on behind its results. -/
theorem answered_good (hc : c.Good) (t : Turn) (hcalls : r.toolCalls ≠ []) :
    (answerCalls w t r.toolCalls.zipIdx (c.called r)).2.Good := by
  obtain ⟨answers, ha⟩ : ∃ answers, answers =
      (answersTo w t r.toolCalls.zipIdx).map fun x => toolMessage x.1 x.2 := ⟨_, rfl⟩
  have hlen : answers ≠ [] := by
    rw [ha]
    unfold answersTo
    simpa using hcalls
  have htool : ∀ m ∈ answers, m.role = .tool := by
    intro m hm
    rw [ha] at hm
    obtain ⟨x, -, rfl⟩ := List.mem_map.mp hm
    rfl
  have hroles : rolesOf answers = List.replicate answers.length .tool := by
    unfold rolesOf
    exact List.eq_replicate_iff.mpr ⟨List.length_map _, fun x hx => by
      obtain ⟨m, hm, rfl⟩ := List.mem_map.mp hx
      exact htool m hm⟩
  have hm : (answerCalls w t r.toolCalls.zipIdx (c.called r)).2.messages = c.messages ++
      ({ role := .assistant, content := r.text, toolCalls := r.toolCalls } :: answers) := by
    rw [answerCalls_conv, ha]
    exact List.append_assoc _ _ _
  have hrs : rolesOf (({ role := .assistant, content := r.text, toolCalls := r.toolCalls } :
      ModelMessage) :: answers) = .assistant :: List.replicate answers.length .tool := by
    rw [← hroles]
    rfl
  have hpos : answers.length ≠ 0 := fun h => hlen (List.eq_nil_of_length_eq_zero h)
  refine hc.append hm ?_ ?_ fun _ => ?_
  · rw [hrs]
    refine alternates_of_ne fun x hx => ?_
    rcases List.mem_cons.mp hx with rfl | hx
    · nofun
    · rw [List.eq_of_mem_replicate hx]
      nofun
  · rw [hrs]
    refine .inr ?_
    rw [List.getLast?_cons, List.getLast?_replicate, if_neg hpos]
    rfl
  · rw [hrs]
    simp

theorem Replied.disciplined (h : Replied w profile t r c notes next)
    (hl : Legal Obs.Follows told) (hc : AllTame told → c.Good) :
    Legal Obs.Follows (told ++ notes) ∧ (AllTame (told ++ notes) → NextGood next) := by
  have hanswers (calls : List (ToolCall × Nat)) (c : Conv) :
      ∀ o ∈ (answerCalls w t calls c).1, o.Disciplined := by
    intro o ho
    obtain ⟨x, ms, rfl⟩ := answerCalls_notes t calls c o ho
    trivial
  have hresponded : (w.respondedTo profile c r).Disciplined := trivial
  have hcharged (ht : AllTame told) : (c.charged profile r).Good := (hc ht).of_messages rfl
  cases h with
  | @ended result hcalls h =>
    refine ⟨follows_append hl fun o ho => ?_, fun ht htext _ => .inr ?_⟩
    · rw [List.mem_singleton.mp ho]
      exact hresponded
    · obtain ⟨htext', hm⟩ := afterText_inl h
      have hsame : result.messages = c.messages := by
        rw [hm, ← htext', htext]
        rfl
      rw [hsame]
      exact ⟨(hc ht.left).headed, (hc ht.left).disciplined⟩
  | continued hcalls h =>
    refine ⟨follows_append hl fun o ho => ?_, fun ht => ?_⟩
    · rcases List.mem_cons.mp ho with rfl | ho
      · exact hresponded
      · rw [List.mem_singleton.mp ho]
        trivial
    · refine afterText_good (hcharged ht.left) h ?_
      exact ht.right _ (List.mem_cons_of_mem _ (List.mem_singleton.mpr rfl))
  | cut h =>
    refine ⟨follows_append hl fun o ho => ?_, fun _ _ hk => absurd rfl hk⟩
    rcases List.mem_cons.mp ho with rfl | ho
    · exact hresponded
    · exact hanswers _ _ o ho
  | @round answered hcalls h =>
    subst h
    have hgood (ht : AllTame told) :
        (answerCalls w t r.toolCalls.zipIdx ((c.charged profile r).called r)).2.Good :=
      answered_good (hcharged ht) t hcalls
    have hsplit : told ++ w.respondedTo profile c r ::
        ((answerCalls w t r.toolCalls.zipIdx ((c.charged profile r).called r)).1 ++
          [w.passed .rounded (answerCalls w t r.toolCalls.zipIdx
            ((c.charged profile r).called r)).2.messages]) =
        (told ++ w.respondedTo profile c r ::
          (answerCalls w t r.toolCalls.zipIdx ((c.charged profile r).called r)).1) ++
            [w.passed .rounded (answerCalls w t r.toolCalls.zipIdx
              ((c.charged profile r).called r)).2.messages] := by
      rw [List.append_assoc, List.cons_append]
    rw [hsplit]
    refine ⟨.snoc (follows_append hl fun o ho => ?_) fun ht => ?_, fun ht => ?_⟩
    · rcases List.mem_cons.mp ho with rfl | ho
      · exact hresponded
      · exact hanswers _ _ o ho
    · have h := hgood (AllTame.left ht)
      exact ⟨h.headed, h.disciplined⟩
    · exact (hgood ht.left.left).of_messages rfl

theorem Sent.disciplined (h : Sent w profile t c notes next) (hl : Legal Obs.Follows told)
    (hc : AllTame told → c.Good) :
    Legal Obs.Follows (told ++ notes) ∧ (AllTame (told ++ notes) → NextGood next) := by
  have hasked : Legal Obs.Follows
      (told ++ [w.passed (.sent (requestedOutput w profile c)) c.messages] ++
        [.requested w.cell.id w.attempt c.messages]) := by
    refine .snoc (follows_append hl fun o ho => ?_) fun ht => (hc (AllTame.left ht)).disciplined
    rw [List.mem_singleton.mp ho]
    trivial
  cases h with
  | starved => exact ⟨by rwa [List.append_nil], fun _ _ hk => absurd rfl hk⟩
  | unanswered =>
    rw [List.append_assoc] at hasked
    refine ⟨hasked, fun ht _ _ => .inr ?_⟩
    exact ⟨(hc ht.left).headed, (hc ht.left).disciplined⟩
  | @answered r notes next hout hr hnext =>
    have hrecorded : AllTame (told ++ [w.passed (.sent (requestedOutput w profile c)) c.messages] ++
        [.requested w.cell.id w.attempt c.messages]) → c.recordAttempt.Good :=
      fun ht => (hc ht.left.left).of_messages rfl
    have h := hnext.disciplined hasked hrecorded
    rw [List.append_assoc, List.append_assoc] at h
    exact h

theorem Turned.disciplined (h : Turned w profile t c notes next) (hl : Legal Obs.Follows told)
    (hc : AllTame told → c.Good) :
    Legal Obs.Follows (told ++ notes) ∧ (AllTame (told ++ notes) → NextGood next) := by
  cases h with
  | stopped => exact ⟨by rwa [List.append_nil], fun _ _ hk => absurd rfl hk⟩
  | @went c' notes notes' _ hbudget hcompact hs =>
    have hturn (ht : AllTame told) : Conv.Good { c with turn := c.turn + 1 } :=
      (hc ht).of_messages rfl
    rw [← List.append_assoc]
    exact hs.disciplined (follows_append hl hcompact.disciplined)
      fun ht => hcompact.good (hturn ht.left) ht.right

/-- Along the loop requests alternate, and what it leaves may be carried on. -/
theorem Looped.disciplined {result : Option WorkerResult} (h : Looped w profile ts c notes result)
    (hl : Legal Obs.Follows told) (hc : AllTame told → c.Good) :
    Legal Obs.Follows (told ++ notes) ∧
      ∀ r ∈ result, AllTame (told ++ notes) → NextGood (.inl r) := by
  induction h generalizing told with
  | out c => exact ⟨by rwa [List.append_nil], nofun⟩
  | last h =>
    obtain ⟨hlegal, hgood⟩ := h.disciplined hl hc
    refine ⟨hlegal, fun r hr => ?_⟩
    cases hr
    exact hgood
  | more h _ ih =>
    obtain ⟨hlegal, hgood⟩ := h.disciplined hl hc
    rw [← List.append_assoc]
    exact ih hlegal hgood

/-- What an attempt starts from. -/
theorem initial_good (w : WorkerInput) (resume : Option (List ModelMessage))
    (h : ∀ ms ∈ resume, ms = [] ∨ Headed (rolesOf ms) ∧ Disciplined ms) :
    Conv.Good { messages := Worker.initialMessages w resume } := by
  have hfresh : Conv.Good { messages :=
      (if w.systemPrompt = "" then [] else [{ role := .system, content := w.systemPrompt }]) ++
        [{ role := .user, content := w.userPrompt }] } := by
    split
    · exact ⟨rfl, List.isChain_singleton _, .inl rfl⟩
    · exact ⟨rfl, by simp [rolesOf, Alternates], .inl rfl⟩
  cases resume with
  | none => exact hfresh
  | some ms =>
    cases ms with
    | nil => exact hfresh
    | cons m ms =>
      rcases h _ rfl with he | ⟨hhead, hd⟩
      · cases he
      · exact ⟨hhead, hd⟩

theorem Worked.disciplined {a : Attempt} {resume : Option (List ModelMessage)}
    {result : Option WorkerResult} (h : Worked w a resume notes result)
    (hl : Legal Obs.Follows told)
    (hb : AllTame told → ∀ ms ∈ resume, ms = [] ∨ Headed (rolesOf ms) ∧ Disciplined ms) :
    Legal Obs.Follows (told ++ notes) ∧
      ∀ r ∈ result, AllTame (told ++ notes) → NextGood (.inl r) := by
  cases h with
  | unresolved =>
    refine ⟨by rwa [List.append_nil], fun r hr => ?_⟩
    cases hr
    exact fun _ _ _ => .inl rfl
  | looped hprofile hs =>
    rw [← List.singleton_append, ← List.append_assoc]
    exact hs.disciplined (.snoc hl fun _ => trivial) fun ht => initial_good w resume (hb ht.left)

end Turns

theorem mem_carriedOf {ms messages : List ModelMessage} (h : ms ∈ carriedOf messages) :
    ms = messages ∧ messages ≠ [] := by
  unfold carriedOf at h
  split at h
  · cases h
  · rename_i hne
    cases h
    exact ⟨rfl, hne⟩

/-! ## Every run of a cell -/

/-- What a cell's attempts leave for the next may be carried on. -/
def disciplineHandover (c : CellInput) : Handover c where
  keeps := Legal Obs.Follows
  before _ resume told := AllTame told → ∀ ms ∈ resume, ms = [] ∨ Headed (rolesOf ms) ∧
    Disciplined ms
  behind _ result told := ∀ r ∈ result, AllTame told → NextGood (.inl r)
  fresh := ⟨.nil, fun _ => nofun⟩
  restored ms := by
    refine ⟨.snoc .nil fun _ => trivial, fun ht ms' hm => ?_⟩
    cases hm
    exact ht _ (List.mem_singleton.mpr rfl)
  attempt hb hk hworked := by
    obtain ⟨hlegal, hgood⟩ := hworked.disciplined hk hb
    refine ⟨fun p hp => ⟨?_, nofun⟩, fun r hr r' hr' => ?_⟩
    · exact hlegal.of_prefix ((List.prefix_append_right_inj _).mpr hp)
    · cases hr'
      exact hgood r hr
  handed {n r told} hr hk _ hbudget := by
    refine ⟨.snoc hk fun _ => trivial, fun ht ms hm => ?_⟩
    obtain ⟨rfl, -⟩ := mem_carriedOf hm
    have htext : r.text = "" := ht.right _ (List.mem_singleton.mpr rfl)
    exact hr r rfl ht.left htext hbudget
  raised _ hk := ⟨.snoc hk fun _ => trivial, fun _ => nofun⟩

/-- **Turn discipline.** In every run of a cell, whatever is answered, cut off,
repaired, compacted and tried again, a request made behind tame notes has no two
turns of the user's in a row and does not end with the model's own. So has what
a round of tools leaves for the checkpoint. -/
theorem requests_disciplined (c : CellInput) (script : List Attempt) (gaps : List (Gap St Exc))
    (s : St) {told after : List Obs} {o : Obs}
    (hnotes : (CellRunner.runCell c script).heard turnNotes gaps s = told ++ o :: after)
    (htame : AllTame told) : o.Disciplined := by
  have hlegal := (disciplineHandover c).heard script gaps s
  rw [hnotes] at hlegal
  exact hlegal.split htame

instance (o : Obs) : Decidable o.Tame := by
  unfold Obs.Tame
  split <;> infer_instance

instance (o : Obs) : Decidable o.Disciplined := by
  unfold Obs.Disciplined
  split <;> infer_instance

instance (told : List Obs) : Decidable (AllTame told) :=
  inferInstanceAs (Decidable (∀ o ∈ told, o.Tame))

/-- A cell without tools whose final text no schema accepts. -/
def turnCell (schema : List (String × Json)) : CellInput where
  cell := { id := "c", outputSchema := schema }
  contract := { id := "wc", objective := "", budget := {} }
  config := { profiles := [{ name := "m" }] }
  toolDefs := []
  registry := []
  estimate := List.length
  parse := fun _ => .invalid ""
  store := fun text => { digest := text, mediaType := "", sizeBytes := 0 }

/-- What its undisturbed run notes. -/
def heardOf (schema : List (String × Json)) (script : List Attempt) : List Obs :=
  (CellRunner.runCell (turnCell schema) script).heard turnNotes
    (List.replicate 60 ⟨id, .resume⟩) {}

/-- A turn in which the model answers, which calls an unknown tool, and which is
cut off before its first word. -/
def repliesWith (text : String) : Turn := { reply := .response { text := text } }

def callsUnknown : Turn := { reply := .response { toolCalls := [{ id := "1", name := "t" }] } }

def cutOffEmpty : Turn := { reply := .response { finishReason := .maxTokens } }

def attemptOf (window : Nat) (turns : List Turn) : Attempt where
  profile := .ok { name := "m", contextWindowTokens := window }
  turns := turns

/-- Behind a round of tools an empty text may be cut off. -/
theorem requests_disciplined_round :
    let notes := heardOf [] [attemptOf 100 [callsUnknown, cutOffEmpty, repliesWith "done"]]
    requestsIn notes = 3 ∧ ∀ o ∈ notes, o.Disciplined := by
  intro notes
  refine ⟨by decide +kernel, fun o ho => ?_⟩
  obtain ⟨told, after, hsplit⟩ := List.append_of_mem ho
  have htame : AllTame notes := by decide +kernel
  rw [hsplit] at htame
  exact requests_disciplined _ _ _ _ hsplit htame.left

/-- An empty text is cut off twice in a row; an attempt is tried again that left
a text no schema accepts; compaction stops in front of a nudge. -/
theorem turns_collide :
    (∃ o ∈ heardOf [] [attemptOf 100 [cutOffEmpty, cutOffEmpty]], ¬ o.Disciplined) ∧
    (∃ o ∈ heardOf [("type", .str "object")]
      [attemptOf 100 [repliesWith "a", repliesWith "b"], attemptOf 100 [repliesWith "c"]],
      ¬ o.Disciplined) ∧
    (∃ o ∈ heardOf [] [attemptOf 9
      [callsUnknown, cutOffEmpty, callsUnknown, callsUnknown, repliesWith "done"]],
      ¬ o.Disciplined) := by
  refine ⟨?_, ?_, ?_⟩ <;> decide +kernel

end Northstack
