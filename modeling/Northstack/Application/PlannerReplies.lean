import Northstack.Adapters.RequestBodies
import Northstack.Application.PlannedGraphs

/-!
# From the request to the plan

`ModelBackedPlanner.plan` with the request it sends (planning_model.py:123-174) and the encoding
of the request's body. What happens to an encoded body, up to the text of a response, is a
parameter, `none` where it raises.

**Results.**
* `proposalSchema_not_encodable`: no body with the proposal's schema in it can be encoded.
* `plan_of_reply`: what becomes of a well-formed proposal.
-/
namespace Northstack

namespace ModelBackedPlanner

/-! ## The request -/

/-- `_PROPOSAL_SCHEMA` (planning_model.py:51-73): the items of the indices are a set. -/
def proposalSchema : List (String × PyValue) :=
  let texts := PyValue.dict [("type", .str "string")]
  let cell := PyValue.dict
    [("type", .str "object"),
      ("properties", .dict
        [("name", texts),
          ("mode", .dict [("type", .str "string"),
            ("enum", .list [.str "read_only", .str "mutating"])]),
          ("depends_on", .dict [("type", .str "array"), ("items", texts)]),
          ("acceptance_criterion_indices", .dict [("type", .str "array"),
            ("items", .set [.str "integer"])]),
          ("budget_share", .dict [("type", .str "number"), ("minimum", .float (.finite false 0)),
            ("maximum", .float (.finite false 1))])]),
      ("required", .list [.str "name", .str "mode"]),
      ("additionalProperties", .bool false)]
  [("type", .str "object"),
    ("properties", .dict [("cells", .dict [("type", .str "array"),
      ("maxItems", .int maxProposedCells), ("items", cell)])]),
    ("required", .list [.str "cells"]),
    ("additionalProperties", .bool false)]

/-- A kind in a format string, which shows the member and not its value. -/
def kindText : CriterionKind → String
  | .command => "CriterionKind.COMMAND"
  | .fileDiff => "CriterionKind.FILE_DIFF"
  | .treeDigest => "CriterionKind.TREE_DIGEST"
  | .schema => "CriterionKind.SCHEMA"
  | .policy => "CriterionKind.POLICY"
  | .softRubric => "CriterionKind.SOFT_RUBRIC"

def criteriaLines (contract : WorkContract) : String :=
  PyText.join "\n" (contract.acceptanceCriteria.mapIdx fun i c =>
    s!"  [{i}] {kindText c.kind}: {c.description}")

/-- What the planner asks (planning_model.py:136-157). -/
def prompt (contract : WorkContract) : String :=
  "You are a work decomposition planner. Split the following contract " ++
  "into a small DAG of execution cells (at most " ++
  s!"{maxProposedCells}). Read-only cells (analysis, search) run " ++
  "concurrently; mutating cells (writing deliverables) run one per " ++
  "wave. Each criterion index must be covered by at least one cell. " ++
  "Respond with JSON only: \x7b\"cells\": [\x7b\"name\": str, \"mode\": " ++
  "\"read_only\"|\"mutating\", \"depends_on\": [names of earlier " ++
  "cells], \"acceptance_criterion_indices\": [ints], " ++
  "\"budget_share\": float in [0,1]\x7d]\x7d.\n\n" ++
  s!"Objective: {contract.objective}\n" ++
  "Scope: " ++ (if contract.scope = "" then "(none)" else contract.scope) ++ "\n" ++
  "Deliverables: " ++ PyText.join ", " contract.deliverables ++ "\n" ++
  s!"Acceptance criteria:\n{criteriaLines contract}"

/-- The request, for as many tokens as the profile's responses may have (build.py:173-178). -/
def planRequest (profile : Config.ModelProfile) (contract : WorkContract) : ModelRequest where
  messages := [{ role := .user, content := prompt contract }]
  outputJsonSchema := some proposalSchema
  maxOutputTokens := some profile.maxOutputTokens
  temperature := some (.finite false 0)

/-- The text of the gateway's response; no body is sent that cannot be encoded. -/
def complete (exchange : Json → Option String) (profile : Config.ModelProfile)
    (r : ModelRequest) : Option String :=
  (buildBody r profile).encode.bind exchange

/-- `ModelBackedPlanner.plan` through the profile's adapter. -/
def planThrough (exchange : Json → Option String)
    (validate : List (String × Json) → Option Proposal) (profile : Config.ModelProfile)
    (contract : WorkContract) (runId : String) : Except JsonText.JsonError GraphVersion :=
  plan validate (complete exchange profile (planRequest profile contract)) contract runId

/-! ## Replies -/

/-- The response to any body proposes these cells; they are well formed and have legal waves. -/
structure Proposes (exchange : Json → Option String)
    (validate : List (String × Json) → Option Proposal) (contract : WorkContract) (p : Proposal) :
    Prop where
  answers : ∀ body, ∃ text, exchange body = some text ∧
    requestProposal validate (some text) = .ok (some p)
  wellFormed : WellFormed contract p.cells
  assigned : ∃ wave, Assigns p.cells wave

/-- The plan has the proposed cells, each dependency in an earlier wave. -/
def Realizes (exchange : Json → Option String) (validate : List (String × Json) → Option Proposal)
    (profile : Config.ModelProfile) (contract : WorkContract) (runId : String) (p : Proposal) :
    Prop :=
  ∃ graph, planThrough exchange validate profile contract runId = .ok graph ∧
    Carries contract p.cells graph ∧ graph.Layered

section

variable {exchange : Json → Option String} {validate : List (String × Json) → Option Proposal}
  {profile : Config.ModelProfile} {contract : WorkContract} {p : Proposal}

/-- The schema of the indices' items holds a set. -/
theorem proposalSchema_not_encodable : ¬ (PyValue.dict proposalSchema).Encodable := by
  decide

/-- Where the schema is sent natively, nothing is. -/
theorem complete_native (h : Capability.nativeJsonSchema ∈ profile.capabilities) :
    complete exchange profile (planRequest profile contract) = none := by
  have hsent : (planRequest profile contract).sentSchema profile = some proposalSchema := if_pos h
  have hbody : ¬ (buildBody (planRequest profile contract) profile).Encodable := by
    rw [buildBody_encodes, hsent]
    intro hall
    exact proposalSchema_not_encodable (hall _ rfl)
  unfold PyValue.Encodable at hbody
  rw [Option.not_isSome_iff_eq_none] at hbody
  unfold complete
  rw [hbody]
  rfl

theorem complete_plain (exchange : Json → Option String) (contract : WorkContract)
    (h : Capability.nativeJsonSchema ∉ profile.capabilities) :
    ∃ body, complete exchange profile (planRequest profile contract) = exchange body := by
  have hsent : (planRequest profile contract).sentSchema profile = none := if_neg h
  have hbody : (buildBody (planRequest profile contract) profile).Encodable := by
    rw [buildBody_encodes, hsent]
    simp
  obtain ⟨body, hencode⟩ := Option.isSome_iff_exists.mp hbody
  refine ⟨body, ?_⟩
  unfold complete
  rw [hencode]
  rfl

theorem planThrough_plain (hp : Proposes exchange validate contract p)
    (h : Capability.nativeJsonSchema ∉ profile.capabilities) (runId : String) :
    planThrough exchange validate profile contract runId =
      .ok (planProposal contract runId p) := by
  obtain ⟨body, hbody⟩ := complete_plain exchange contract h
  obtain ⟨text, htext, hreply⟩ := hp.answers body
  unfold planThrough plan
  rw [hbody, htext, hreply]

theorem planThrough_native (h : Capability.nativeJsonSchema ∈ profile.capabilities)
    (runId : String) : planThrough exchange validate profile contract runId =
      .ok (fallback contract runId) := by
  unfold planThrough
  rw [complete_native h]
  rfl

/-- **The plan of a reply.** For a profile that is sent no schema, a well-formed proposal with
legal waves, in which no cell is overtaken by one it waits for, becomes the plan if its budgets
keep to the caps, and gives way to the single-cell plan if they do not. -/
theorem plan_of_reply (hp : Proposes exchange validate contract p)
    (hplain : Capability.nativeJsonSchema ∉ profile.capabilities)
    (hovertaken : ¬ Overtaken p.cells) (runId : String) :
    (WithinCaps contract p.cells → Realizes exchange validate profile contract runId p) ∧
    (¬ WithinCaps contract p.cells → planThrough exchange validate profile contract runId =
      .ok (fallback contract runId)) := by
  obtain ⟨hwithin, hbeyond⟩ := hp.wellFormed.plans hp.assigned hovertaken runId
  have hplan := planThrough_plain hp hplain runId
  constructor
  · intro hcaps
    obtain ⟨hcarries, hlayered⟩ := hwithin hcaps
    exact ⟨_, hplan, hcarries, hlayered⟩
  · intro hcaps
    rw [hplan, hbeyond hcaps]

end

/-! ## Replies that are read -/

def readText : Json → Option String
  | .str s => some s
  | _ => none

def readTexts : Json → Option (List String)
  | .arr xs => xs.mapM readText
  | _ => none

/-- A field with a default. -/
def readField {α : Type} (key : String) (read : Json → Option α) (default : α)
    (fields : List (String × Json)) : Option α :=
  match Json.lookup key fields with
  | none => some default
  | some j => read j

/-- The proposal's own schema for cells without criteria and with the default share. -/
def readCell : Json → Option ProposedCell
  | .obj fields =>
    match readField "name" readText "" fields, readField "mode" readText "mutating" fields,
        readField "depends_on" readTexts [] fields with
    | some name, some mode, some deps => some { name := name, mode := mode, dependsOn := deps }
    | _, _, _ => none
  | _ => none

def readProposal (fields : List (String × Json)) : Option Proposal :=
  match Json.lookup "cells" fields with
  | some (.arr cells) => (cells.mapM readCell).map fun cells => { cells := cells }
  | _ => none

def quoted (s : String) : String := "\"" ++ s ++ "\""

/-- What is not the default is written. -/
def cellText (c : ProposedCell) : String :=
  let fields := ["\"name\": " ++ quoted c.name] ++
    (if c.mode = "mutating" then [] else ["\"mode\": " ++ quoted c.mode]) ++
    (if c.dependsOn = [] then []
      else ["\"depends_on\": [" ++ PyText.join ", " (c.dependsOn.map quoted) ++ "]"])
  "\x7b" ++ PyText.join ", " fields ++ "\x7d"

def replyText (p : Proposal) : String :=
  "\x7b\"cells\": [" ++ PyText.join ", " (p.cells.map cellText) ++ "]\x7d"

deriving instance DecidableEq for ProposedCell, Proposal

/-- The model's answer to any request. -/
def replies (p : Proposal) : Json → Option String := fun _ => some (replyText p)

def readsBack (p : Proposal) : Prop :=
  (requestProposal readProposal (some (replyText p))).toOption = some (some p)

instance (p : Proposal) : Decidable (readsBack p) := inferInstanceAs (Decidable (_ = _))

theorem proposes_of_readsBack {contract : WorkContract} {p : Proposal} (h : readsBack p)
    (hw : WellFormed contract p.cells) (ha : ∃ wave, Assigns p.cells wave) :
    Proposes (replies p) readProposal contract p where
  answers := by
    intro body
    refine ⟨_, rfl, ?_⟩
    unfold readsBack at h
    cases hread : requestProposal readProposal (some (replyText p)) with
    | error e =>
      rw [hread] at h
      cases h
    | ok q =>
      rw [hread] at h
      cases h
      rfl
  wellFormed := hw
  assigned := ha

/-- A cell that looks and one that then builds. -/
def lookThenBuild : Proposal where
  cells := [{ name := "a", mode := "read_only" }, { name := "b", dependsOn := ["a"] }]

/-- The second cell is bumped to the wave of the third, which waits for it. -/
def bumpedPair : Proposal where
  cells := [{ name := "a" }, { name := "b" },
    { name := "c", mode := "read_only", dependsOn := ["b"] }]

def limitedContract (tokens : Nat) : WorkContract :=
  { bareContract with budget := { tokenLimit := some tokens } }

def plannerProfile (protocol : Gateway.Protocol) (capabilities : Finset Capability) :
    Config.ModelProfile where
  name := "planner"
  protocol := protocol
  baseUrl := "https://models.example"
  model := "m"
  capabilities := capabilities
  maxConcurrency := 1

theorem lookThenBuild_proposes (tokens : Nat) :
    Proposes (replies lookThenBuild) readProposal (limitedContract tokens) lookThenBuild := by
  apply proposes_of_readsBack
  · decide +kernel
  · have hbare : WellFormed bareContract lookThenBuild.cells := by decide +kernel
    exact ⟨hbare.two, hbare.eight, hbare.named, hbare.unique, hbare.refers, hbare.covers,
      hbare.shares⟩
  · refine ⟨fun i => i, ?_⟩
    decide +kernel

theorem lookThenBuild_not_overtaken : ¬ Overtaken lookThenBuild.cells := by
  intro h
  obtain ⟨levels, -, j, i, c, e, m, n, hneeds, hc, hread, -⟩ := h
  have hmutating : ∀ j < 2, ∀ i < 2, Needs lookThenBuild.cells j i →
      lookThenBuild.cells[i]?.any isMutating = true := by decide +kernel
  have hwaiting := hmutating j hneeds.lt_length.1 i hneeds.lt_length.2 hneeds
  rw [hc, Option.any_some, hread] at hwaiting
  cases hwaiting

theorem plan_of_reply_look :
    Realizes (replies lookThenBuild) readProposal (plannerProfile .anthropicMessages ∅)
      (limitedContract 100) "r" lookThenBuild :=
  (plan_of_reply (lookThenBuild_proposes 100) (Finset.notMem_empty _)
    lookThenBuild_not_overtaken "r").1 (by decide +kernel)

/-- A plan of another number of cells realizes nothing. -/
theorem not_realizes {exchange : Json → Option String}
    {validate : List (String × Json) → Option Proposal} {profile : Config.ModelProfile}
    {contract : WorkContract} {runId : String} {p : Proposal} {graph : GraphVersion}
    (hplan : planThrough exchange validate profile contract runId = .ok graph)
    (hlength : graph.cells.length ≠ p.cells.length) :
    ¬ Realizes exchange validate profile contract runId p := by
  intro h
  obtain ⟨graph', hplan', hcarries, -⟩ := h
  rw [hplan] at hplan'
  cases hplan'
  exact hlength hcarries.length

/-- A legal proposal does not become the plan. -/
def Discards (profile : Config.ModelProfile) (contract : WorkContract) (p : Proposal) : Prop :=
  Proposes (replies p) readProposal contract p ∧
    ¬ Realizes (replies p) readProposal profile contract "r" p

/-- None of the conditions can go: a schema is sent, whatever the protocol, and nothing is
answered; the third of three cells is overtaken; twice as many tokens as there may be are
shared. -/
theorem replies_discarded :
    (∀ protocol, Discards (plannerProfile protocol {.nativeJsonSchema}) (limitedContract 100)
      lookThenBuild) ∧
    Discards (plannerProfile .openaiChat ∅) bareContract bumpedPair ∧
    Discards (plannerProfile .openaiChat ∅) (limitedContract 20000000) lookThenBuild := by
  refine ⟨?_, ?_, lookThenBuild_proposes 20000000, ?_⟩
  · intro protocol
    refine ⟨lookThenBuild_proposes 100, ?_⟩
    apply not_realizes (planThrough_native (Finset.mem_singleton_self _) "r")
    decide +kernel
  · have hproposes : Proposes (replies bumpedPair) readProposal bareContract bumpedPair := by
      apply proposes_of_readsBack
      · decide +kernel
      · decide +kernel
      · refine ⟨fun i => if i = 1 then 0 else 1, ?_⟩
        decide +kernel
    refine ⟨hproposes, ?_⟩
    apply not_realizes (planThrough_plain hproposes (Finset.notMem_empty _) "r")
    decide +kernel
  · apply not_realizes (planThrough_plain (lookThenBuild_proposes 20000000)
      (Finset.notMem_empty _) "r")
    decide +kernel

end ModelBackedPlanner

end Northstack
