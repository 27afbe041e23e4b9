import Northstack.Adapters.ResponseParsing

/-!
# What the assembler makes of a stream

`StreamAssembler` in terms of the deltas it is given: the texts in order, and
for each index that occurs, what was said of it.

**Result.** `assembled_spec`: the response assembled of deltas whose indices,
in order, are `ks` has the texts joined and one call for each index of `ks`.
-/
namespace Northstack

/-! ## Joining texts -/

theorem foldl_append_join (xs : List String) (a : String) :
    xs.foldl (· ++ ·) a = a ++ String.join xs := by
  unfold String.join
  induction xs generalizing a with
  | nil => simp
  | cons x xs ih =>
    rw [List.foldl_cons, List.foldl_cons, ih, ih ("" ++ x), String.empty_append,
      String.append_assoc]

@[simp] theorem join_nil : String.join [] = "" := rfl

@[simp] theorem join_cons (x : String) (xs : List String) :
    String.join (x :: xs) = x ++ String.join xs := by
  conv_lhs => unfold String.join
  rw [List.foldl_cons, foldl_append_join, String.empty_append]

@[simp] theorem join_append (xs ys : List String) :
    String.join (xs ++ ys) = String.join xs ++ String.join ys := by
  induction xs with
  | nil => simp
  | cons x xs ih => simp [ih, String.append_assoc]

/-! ## What a stream says -/

/-- What one delta says of a call. -/
structure Piece where
  id : String
  name : String
  fragment : String
  signature : String

def ToolBuffer.addPiece (b : ToolBuffer) (p : Piece) : ToolBuffer :=
  b.add p.id p.name p.fragment p.signature

namespace StreamDelta

def text? : StreamDelta → Option String
  | .text t => some t
  | _ => none

def usage? : StreamDelta → Option Usage
  | .usage u => some u
  | _ => none

def finish? : StreamDelta → Option FinishReason
  | .finish f => some f
  | _ => none

/-- What a delta says of a call, and the call's index. -/
def piece? : StreamDelta → Option (Nat × Piece)
  | .toolCall i id name fragment signature => some (i, ⟨id, name, fragment, signature⟩)
  | _ => none

end StreamDelta

/-- What is said of calls, in order. -/
def pieces (ds : List StreamDelta) : List (Nat × Piece) := ds.filterMap StreamDelta.piece?

/-- What is said of the call with index `i`. -/
def piecesOf (i : Nat) (ps : List (Nat × Piece)) : List Piece :=
  (ps.filter fun p => p.1 = i).map Prod.snd

/-- A delta that says `p` of the call with index `i`. -/
def Piece.delta (i : Nat) (p : Piece) : StreamDelta :=
  .toolCall i p.id p.name p.fragment p.signature

/-- What is gathered of it. -/
def gathered (ps : List Piece) : ToolBuffer := ps.foldl ToolBuffer.addPiece {}

theorem piecesOf_append (i : Nat) (ps qs : List (Nat × Piece)) :
    piecesOf i (ps ++ qs) = piecesOf i ps ++ piecesOf i qs := by
  unfold piecesOf
  rw [List.filter_append, List.map_append]

section

variable {α : Type} (index : α → Nat) (piece : α → Piece) (zs : List α)

/-- Deltas that speak of calls say nothing else. -/
theorem pieces_deltas :
    pieces (zs.map fun z => (piece z).delta (index z)) = zs.map fun z => (index z, piece z) := by
  unfold pieces
  induction zs with
  | nil => rfl
  | cons z zs ih =>
    rw [List.map_cons, List.filterMap_cons_some
      (show StreamDelta.piece? _ = some (index z, piece z) from rfl), ih]
    rfl

theorem silent_deltas {β : Type} {f : StreamDelta → Option β}
    (hf : ∀ i p, f (Piece.delta i p) = none) :
    (zs.map fun z => (piece z).delta (index z)).filterMap f = [] := by
  rw [List.filterMap_eq_nil_iff]
  intro d hd
  obtain ⟨z, -, rfl⟩ := List.mem_map.mp hd
  exact hf _ _

theorem piecesOf_map (i : Nat) :
    piecesOf i (zs.map fun z => (index z, piece z)) =
      (zs.filter fun z => index z = i).map piece := by
  unfold piecesOf
  rw [List.filter_map, List.map_map]
  rfl

end

/-! ## The assembler's fields -/

namespace StreamAssembler

variable (ds : List StreamDelta) (a : StreamAssembler)

theorem foldl_text : (ds.foldl update a).text = a.text ++ ds.filterMap StreamDelta.text? := by
  induction ds generalizing a with
  | nil => simp
  | cons d ds ih =>
    rw [List.foldl_cons, ih]
    cases d <;> simp [update, List.filterMap_cons, StreamDelta.text?]

theorem foldl_usage :
    (ds.foldl update a).usage = (ds.filterMap StreamDelta.usage?).getLastD a.usage := by
  induction ds generalizing a with
  | nil => rfl
  | cons d ds ih =>
    rw [List.foldl_cons, ih]
    cases d with
    | usage u =>
      rw [List.filterMap_cons_some (show (StreamDelta.usage u).usage? = some u from rfl),
        List.getLastD_cons]
      rfl
    | _ => rfl

theorem foldl_finish :
    (ds.foldl update a).finish = (ds.filterMap StreamDelta.finish?).getLast?.or a.finish := by
  induction ds generalizing a with
  | nil => rfl
  | cons d ds ih =>
    rw [List.foldl_cons, ih]
    cases d with
    | finish f =>
      rw [List.filterMap_cons_some (show (StreamDelta.finish f).finish? = some f from rfl),
        List.getLast?_cons]
      cases (ds.filterMap StreamDelta.finish?).getLast? <;> rfl
    | _ => rfl

/-- Only what is said of calls changes the buffers. -/
theorem foldl_tools :
    (ds.foldl update a).tools =
      (pieces ds).foldl (fun bs p => alterBuffer p.1 (·.addPiece p.2) bs) a.tools := by
  induction ds generalizing a with
  | nil => rfl
  | cons d ds ih =>
    rw [List.foldl_cons, ih]
    cases d <;> rfl

end StreamAssembler

/-! ## The buffers -/

section

variable {i j : Nat} {f : ToolBuffer → ToolBuffer} {bs : List (Nat × ToolBuffer)}

theorem alterBuffer_keys :
    (alterBuffer i f bs).map Prod.fst =
      if i ∈ bs.map Prod.fst then bs.map Prod.fst else bs.map Prod.fst ++ [i] := by
  induction bs with
  | nil => rfl
  | cons b bs ih =>
    obtain ⟨j, b⟩ := b
    unfold alterBuffer
    by_cases hj : j = i
    · simp [hj]
    · rw [if_neg hj, List.map_cons, ih]
      by_cases hi : i ∈ bs.map Prod.fst
      · rw [if_pos hi, if_pos (by simp [hi])]
        rfl
      · rw [if_neg hi, if_neg (by simpa [hi] using Ne.symm hj)]
        rfl

theorem mem_alterBuffer_keys :
    j ∈ (alterBuffer i f bs).map Prod.fst ↔ j ∈ bs.map Prod.fst ∨ j = i := by
  rw [alterBuffer_keys]
  by_cases hi : i ∈ bs.map Prod.fst
  · rw [if_pos hi]
    refine ⟨.inl, fun hj => ?_⟩
    rcases hj with hj | rfl
    · exact hj
    · exact hi
  · rw [if_neg hi, List.mem_append, List.mem_singleton]

theorem nodup_alterBuffer (h : (bs.map Prod.fst).Nodup) :
    ((alterBuffer i f bs).map Prod.fst).Nodup := by
  rw [alterBuffer_keys]
  by_cases hi : i ∈ bs.map Prod.fst
  · rwa [if_pos hi]
  · rw [if_neg hi]
    refine List.nodup_append.mpr ⟨h, List.nodup_singleton i, fun x hx y hy he => hi ?_⟩
    rw [← List.mem_singleton.mp hy, ← he]
    exact hx

theorem lookup_alterBuffer :
    (alterBuffer i f bs).lookup j =
      if j = i then some (f ((bs.lookup i).getD {})) else bs.lookup j := by
  induction bs with
  | nil =>
    by_cases hj : j = i
    · simp [alterBuffer, hj]
    · simp [alterBuffer, List.lookup_cons, beq_false_of_ne hj, hj]
  | cons b bs ih =>
    obtain ⟨k, b⟩ := b
    unfold alterBuffer
    by_cases hk : k = i
    · subst hk
      rw [if_pos rfl, List.lookup_cons, List.lookup_cons, List.lookup_cons]
      by_cases hj : j = k
      · simp [hj]
      · simp only [beq_false_of_ne hj, if_neg hj]
    · rw [if_neg hk, List.lookup_cons, List.lookup_cons, List.lookup_cons, ih,
        beq_false_of_ne (Ne.symm hk)]
      by_cases hj : j = k
      · subst hj
        simp [hk]
      · simp only [beq_false_of_ne hj]

end

theorem lookup_of_mem {bs : List (Nat × ToolBuffer)} (hn : (bs.map Prod.fst).Nodup)
    {p : Nat × ToolBuffer} (hp : p ∈ bs) : bs.lookup p.1 = some p.2 := by
  induction bs with
  | nil => cases hp
  | cons b bs ih =>
    rw [List.map_cons, List.nodup_cons] at hn
    rw [List.lookup_cons]
    rcases List.mem_cons.mp hp with rfl | hp
    · rw [beq_self_eq_true]
    · have hne : p.1 ≠ b.1 := fun he => hn.1 (he ▸ List.mem_map_of_mem hp)
      rw [beq_false_of_ne hne]
      exact ih hn.2 hp

/-- The buffers hold what was gathered of each call. -/
structure Gathers (bs : List (Nat × ToolBuffer)) (ps : List (Nat × Piece)) : Prop where
  keys : (bs.map Prod.fst).Nodup
  indices : ∀ i, i ∈ bs.map Prod.fst ↔ i ∈ ps.map Prod.fst
  buffers : ∀ i, (bs.lookup i).getD {} = gathered (piecesOf i ps)

theorem gathers (ps : List (Nat × Piece)) :
    Gathers (ps.foldl (fun bs p => alterBuffer p.1 (·.addPiece p.2) bs) []) ps := by
  induction ps using List.reverseRecOn with
  | nil => exact ⟨List.nodup_nil, fun _ => Iff.rfl, fun _ => rfl⟩
  | append_singleton ps p ih =>
    obtain ⟨i, p⟩ := p
    rw [List.foldl_append, List.foldl_cons, List.foldl_nil]
    refine ⟨nodup_alterBuffer ih.keys, fun j => ?_, fun j => ?_⟩
    · rw [mem_alterBuffer_keys, ih.indices, List.map_append, List.mem_append, List.map_singleton,
        List.mem_singleton]
    · rw [lookup_alterBuffer, piecesOf_append]
      by_cases hj : j = i
      · subst hj
        rw [if_pos rfl, Option.getD_some, ih.buffers]
        simp [gathered, piecesOf]
      · rw [if_neg hj, ih.buffers]
        simp [piecesOf, Ne.symm hj]

/-- In the order of the indices. -/
theorem sorted_gathered {bs : List (Nat × ToolBuffer)} {ps : List (Nat × Piece)}
    (h : Gathers bs ps) {ks : List Nat} (hk : ks.Pairwise (· < ·))
    (hm : ∀ i, i ∈ ks ↔ i ∈ ps.map Prod.fst) :
    (bs.insertionSort fun x y => x.1 ≤ y.1).map Prod.snd =
      ks.map fun i => gathered (piecesOf i ps) := by
  have hnodup : ks.Nodup := hk.imp fun hlt => Nat.ne_of_lt hlt
  have hkeys : (bs.insertionSort fun x y => x.1 ≤ y.1).map Prod.fst = ks := by
    rw [List.map_insertionSort _ (· ≤ ·) Prod.fst bs fun _ _ _ _ => Iff.rfl]
    refine List.Perm.eq_of_pairwise (fun x y _ _ (hxy : x ≤ y) hyx => le_antisymm hxy hyx)
      (List.pairwise_insertionSort _ _) (hk.imp fun hlt => hlt.le) ?_
    refine (List.perm_insertionSort _ _).trans ?_
    exact (List.perm_ext_iff_of_nodup h.keys hnodup).mpr fun i => (h.indices i).trans (hm i).symm
  rw [← hkeys, List.map_map]
  refine List.map_congr_left fun p hp => ?_
  have hmem : p ∈ bs := (List.mem_insertionSort _).mp hp
  show p.2 = gathered (piecesOf p.1 ps)
  rw [← h.buffers, lookup_of_mem h.keys hmem]
  rfl

/-! ## What is gathered -/

theorem gathered_fields (ps : List Piece) (b : ToolBuffer) :
    ps.foldl ToolBuffer.addPiece b =
      ⟨(ps.map (·.id)).foldl keepLast b.id, (ps.map (·.name)).foldl keepLast b.name,
        b.args ++ String.join (ps.map (·.fragment)),
        (ps.map (·.signature)).foldl keepLast b.signature⟩ := by
  induction ps generalizing b with
  | nil => simp
  | cons p ps ih =>
    rw [List.foldl_cons, ih]
    simp [ToolBuffer.addPiece, ToolBuffer.add, String.append_assoc]

/-- What is always said the same way is kept. -/
theorem foldl_keepLast {x : String} {xs : List String} {b : String}
    (hb : b = "" ∨ b = x) (hx : ∀ y ∈ xs, y = "" ∨ y = x) (hm : x ∈ xs ∨ b = x) :
    xs.foldl keepLast b = x := by
  induction xs generalizing b with
  | nil => exact hm.resolve_left List.not_mem_nil
  | cons y xs ih =>
    have hx' := fun z hz => hx z (List.mem_cons_of_mem _ hz)
    rw [List.foldl_cons]
    unfold keepLast
    by_cases hy : y = ""
    · rw [if_pos hy]
      refine ih hb hx' ?_
      rcases hm with hm | hm
      · rcases List.mem_cons.mp hm with rfl | hm
        · rcases hb with rfl | rfl
          · exact .inr hy.symm
          · exact .inr rfl
        · exact .inl hm
      · exact .inr hm
    · rw [if_neg hy]
      have hyx : y = x := (hx y List.mem_cons_self).resolve_left hy
      exact ih (.inr hyx) hx' (.inr hyx)

/-- What is said of a call: always this id, name and signature or none, and once
each at least, and fragments that make up these arguments. -/
structure Tells (ps : List Piece) (b : ToolBuffer) : Prop where
  id : (∀ p ∈ ps, p.id = "" ∨ p.id = b.id) ∧ (b.id = "" ∨ ∃ p ∈ ps, p.id = b.id)
  name : (∀ p ∈ ps, p.name = "" ∨ p.name = b.name) ∧ (b.name = "" ∨ ∃ p ∈ ps, p.name = b.name)
  signature : (∀ p ∈ ps, p.signature = "" ∨ p.signature = b.signature) ∧
    (b.signature = "" ∨ ∃ p ∈ ps, p.signature = b.signature)
  args : String.join (ps.map (·.fragment)) = b.args

theorem Tells.single (p : Piece) : Tells [p] ⟨p.id, p.name, p.fragment, p.signature⟩ := by
  constructor <;> simp

theorem Tells.gathered {ps : List Piece} {b : ToolBuffer} (h : Tells ps b) :
    gathered ps = b := by
  have hkeep {f : Piece → String} {x : String}
      (hf : (∀ p ∈ ps, f p = "" ∨ f p = x) ∧ (x = "" ∨ ∃ p ∈ ps, f p = x)) :
      (ps.map f).foldl keepLast "" = x := by
    refine foldl_keepLast (.inl rfl) (List.forall_mem_map.mpr hf.1) ?_
    rcases hf.2 with he | ⟨p, hp, he⟩
    · exact .inr he.symm
    · exact .inl (List.mem_map.mpr ⟨p, hp, he⟩)
  unfold Northstack.gathered
  rw [gathered_fields, hkeep h.id, hkeep h.name, hkeep h.signature, h.args, String.empty_append]

/-! ## The response assembled -/

/-- A loop that succeeds at each place. -/
theorem mapM_zipIdx {α β ε : Type} {f : Nat → α → Except ε β} {xs : List α} {ys : List β} {k : Nat}
    (hl : xs.length = ys.length)
    (h : ∀ n, ∀ hx : n < xs.length, ∀ hy : n < ys.length, f (k + n) xs[n] = .ok ys[n]) :
    ((xs.zipIdx k).mapM fun p => f p.2 p.1) = .ok ys := by
  induction xs generalizing ys k with
  | nil =>
    rw [List.eq_nil_of_length_eq_zero hl.symm]
    rfl
  | cons x xs ih =>
    obtain ⟨y, ys, rfl⟩ := List.exists_cons_of_length_eq_add_one hl.symm
    have hx : f k x = .ok y := h 0 (by simp) (by simp)
    have hxs : ((xs.zipIdx (k + 1)).mapM fun p => f p.2 p.1) = .ok ys := by
      refine ih (by simpa using hl) fun n hn hn' => ?_
      have hnext := h (n + 1) (by simpa using hn) (by simpa using hn')
      rwa [show k + (n + 1) = k + 1 + n by omega] at hnext
    rw [List.zipIdx_cons, List.mapM_cons, hxs]
    show (f k x >>= _) = _
    rw [hx]
    rfl

/-- **Assembly.** Deltas whose indices are `ks`, in order, and whose buffers
build `calls`, are assembled to their texts and these calls. -/
theorem assembled_spec {uuid : Nat → String} {ds : List StreamDelta} {ks : List Nat}
    {calls : List ToolCall} (hk : ks.Pairwise (· < ·))
    (hm : ∀ i, i ∈ ks ↔ i ∈ (pieces ds).map Prod.fst) (hl : ks.length = calls.length)
    (hc : ∀ n, ∀ hx : n < ks.length, ∀ hy : n < calls.length,
      StreamAssembler.buildCall uuid n (gathered (piecesOf ks[n] (pieces ds))) = .ok calls[n]) :
    assembleStreamedResponse uuid (.ok ds) = .ok
      { text := String.join (ds.filterMap StreamDelta.text?)
        toolCalls := calls
        finishReason := (ds.filterMap StreamDelta.finish?).getLast?.getD .endTurn
        usage := (ds.filterMap StreamDelta.usage?).getLastD {} } := by
  have hsorted : (ds.foldl StreamAssembler.update {}).sorted =
      ks.map fun i => gathered (piecesOf i (pieces ds)) := by
    unfold StreamAssembler.sorted
    rw [StreamAssembler.foldl_tools]
    exact sorted_gathered (gathers _) hk hm
  have hbuild : ((ds.foldl StreamAssembler.update {}).sorted.zipIdx.mapM fun p =>
      StreamAssembler.buildCall uuid p.2 p.1) = .ok calls := by
    rw [hsorted]
    refine mapM_zipIdx (by simpa using hl) fun n hx hy => ?_
    rw [Nat.zero_add, List.getElem_map]
    exact hc n (by simpa using hx) hy
  unfold assembleStreamedResponse StreamAssembler.build
  dsimp only
  rw [hbuild, StreamAssembler.foldl_text, StreamAssembler.foldl_usage,
    StreamAssembler.foldl_finish]
  simp [Option.or_none]

/-- A stream that ends with its usage and its finish reason. -/
theorem assembled_ended {uuid : Nat → String} {ds : List StreamDelta} {ks : List Nat}
    {calls : List ToolCall} {usage : Usage} {finish : FinishReason} (hk : ks.Pairwise (· < ·))
    (hm : ∀ i, i ∈ ks ↔ i ∈ (pieces ds).map Prod.fst) (hl : ks.length = calls.length)
    (hc : ∀ n, ∀ hx : n < ks.length, ∀ hy : n < calls.length,
      StreamAssembler.buildCall uuid n (gathered (piecesOf ks[n] (pieces ds))) = .ok calls[n]) :
    assembleStreamedResponse uuid (.ok (ds ++ [.usage usage, .finish finish])) = .ok
      { text := String.join (ds.filterMap StreamDelta.text?)
        toolCalls := calls, finishReason := finish, usage := usage } := by
  have hpieces : pieces (ds ++ [.usage usage, .finish finish]) = pieces ds := by
    unfold pieces
    rw [List.filterMap_append, List.filterMap_cons_none rfl, List.filterMap_cons_none rfl,
      List.filterMap_nil, List.append_nil]
  have htext : (ds ++ [StreamDelta.usage usage, .finish finish]).filterMap StreamDelta.text? =
      ds.filterMap StreamDelta.text? := by
    rw [List.filterMap_append, List.filterMap_cons_none rfl, List.filterMap_cons_none rfl,
      List.filterMap_nil, List.append_nil]
  have husage : ((ds ++ [StreamDelta.usage usage, .finish finish]).filterMap
      StreamDelta.usage?).getLastD {} = usage := by
    rw [List.filterMap_append]
    exact List.getLastD_concat
  have hfinish : ((ds ++ [StreamDelta.usage usage, .finish finish]).filterMap
      StreamDelta.finish?).getLast? = some finish := by
    rw [List.filterMap_append]
    exact List.getLast?_concat
  rw [assembled_spec hk (by rwa [hpieces]) hl (by rwa [hpieces]), htext, husage, hfinish]
  rfl

/-! ## Well-formed fields -/

/-- Going on from what was read. -/
@[simp] theorem ok_bind {ε α β : Type} (x : α) (f : α → Except ε β) :
    ((.ok x : Except ε α) >>= f) = f x := rfl

/-- A field is this text, or absent or null. -/
def Said (j : Option Json) : Option String → Prop
  | some t => j = some (.str t)
  | none => j = none ∨ j = some .null

theorem Said.orStr {j : Option Json} {t : Option String} (h : Said j t) :
    Wire.orStr j = .ok (t.getD "") := by
  cases t with
  | some t =>
    rw [show j = _ from h]
    rfl
  | none =>
    rcases h with rfl | rfl
    · rfl
    · rfl

/-- A field is this count, or absent. -/
def Counted (j : Option Json) (n : Option Nat) : Prop := j = n.map fun n => .int n

theorem Counted.intOr {j : Option Json} {n : Option Nat} (h : Counted j n) :
    Wire.intOr j = .ok (n.getD 0 : Nat) := by
  rw [show j = _ from h]
  cases n <;> rfl

@[simp] theorem orDict_obj (fs : Fields) : Wire.orDict (some (.obj fs)) = .ok fs := by
  cases fs <;> rfl

@[simp] theorem dictOr_obj (fs : Fields) : Wire.dictOr (some (.obj fs)) = .ok fs := rfl

@[simp] theorem orList_arr (xs : List Json) : Wire.orList (some (.arr xs)) = .ok xs := rfl

@[simp] theorem count_nat (n : Nat) : Wire.count n = .ok n := by
  unfold Wire.count
  rw [if_neg (by omega)]
  rfl

@[simp] theorem index_nat (n : Nat) : Wire.index (some (.int n)) = .ok n := by
  unfold Wire.index
  show (if (n : Int) < 0 then _ else _) = _
  rw [if_neg (by omega)]
  rfl

/-- The finish reason of a response whose provider says `raw`. -/
def reasonOf (table : String → Option FinishReason) (raw : String) : FinishReason :=
  (table raw).getD .endTurn

theorem reasonOf_toolUse {table : String → Option FinishReason} {raw : String} :
    reasonOf table raw = .toolUse ↔ table raw = some .toolUse := by
  unfold reasonOf
  cases table raw with
  | none => simp
  | some f => simp

theorem finishFrom_said {table : String → Option FinishReason} {old : Option FinishReason}
    {j : Option Json} {raw : Option String} (h : Said j raw) :
    Wire.finishFrom table old j = .ok ((raw.map (reasonOf table)).or old) := by
  cases raw with
  | some raw =>
    rw [show j = _ from h]
    rfl
  | none =>
    rcases h with rfl | rfl
    · rfl
    · rfl

/-- What the raw arguments of a call are read as. -/
def ReadsAs (raw : String) (fs : Fields) : Prop :=
  raw = "" ∧ fs = [] ∨ JsonText.loads raw = .ok (.obj fs)

theorem ReadsAs.safe {raw : String} {fs : Fields} (h : ReadsAs raw fs) :
    safeJsonObject raw = .ok fs := by
  unfold safeJsonObject
  rcases h with ⟨rfl, rfl⟩ | h
  · rfl
  · by_cases he : raw = ""
    · rw [he] at h
      cases h
    · rw [if_neg he, h]

theorem buildCall_tells {uuid : Nat → String} {n : Nat} {ps : List Piece} {b : ToolBuffer}
    {args : Fields} (h : Tells ps b) (hid : b.id ≠ "") (hname : b.name ≠ "")
    (hargs : ReadsAs b.args args) :
    StreamAssembler.buildCall uuid n (gathered ps) = .ok ⟨b.id, b.name, args, b.signature⟩ := by
  rw [h.gathered]
  unfold StreamAssembler.buildCall toolCall
  rw [hargs.safe, if_neg hid]
  show (if b.id = "" ∨ b.name = "" then _ else _) = _
  rw [if_neg (by simp [hid, hname])]

/-- What is only ever said one way was last said so. -/
theorem getLast?_constant {α : Type} {xs : List α} {x : α} (h : xs ≠ []) (hx : ∀ y ∈ xs, y = x) :
    xs.getLast? = some x := by
  rw [List.getLast?_eq_some_getLast h, hx _ (List.getLast_mem h)]

/-- Two parsers agree: both return, and the same. -/
def SameResponse (streamed : Except (ProviderProtocolError ⊕ Fault) ModelResponse)
    (parsed : Except ProviderProtocolError ModelResponse) : Prop :=
  ∃ r, streamed = .ok r ∧ parsed = .ok r

theorem sameResponse_ok {r r' : ModelResponse} : SameResponse (.ok r) (.ok r') ↔ r = r' := by
  constructor
  · rintro ⟨x, hx, hx'⟩
    exact (Except.ok.inj hx).trans (Except.ok.inj hx').symm
  · rintro rfl
    exact ⟨r, rfl, rfl⟩

theorem not_sameResponse_error {e : ProviderProtocolError}
    {streamed : Except (ProviderProtocolError ⊕ Fault) ModelResponse} :
    ¬ SameResponse streamed (.error e) := by
  rintro ⟨r, -, hr⟩
  cases hr

end Northstack
