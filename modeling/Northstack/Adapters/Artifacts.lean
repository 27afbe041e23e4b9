import Northstack.Adapters.Workspace

/-!
# The artifact store

`ArtifactStore` keeps a blob under the digest of its bytes. A write leaves a blob alone
that matches its digest and replaces any other; a read refuses what is larger than the
store's limit and checks the digest of the rest. What happens to the files besides, and
which steps of a write fail, is part of a run.

A write has no limit: what is larger than the store reads back is stored and verified,
and every read of it is refused.

**Result.** `artifact_law`: what is read is what was asked for, what a write returned for
is there until it is damaged, and is read back if it is within the limit.
-/
namespace Northstack

open Workspace

namespace ArtifactStore

/-- `ArtifactRef` (domain/outcome.py:48-53) -/
structure ArtifactRef where
  digest : String
  mediaType : String
  sizeBytes : Nat
  deriving DecidableEq

/-- `ref.digest.split(":", 1)[1]` -/
def ArtifactRef.digestHash (ref : ArtifactRef) : String :=
  String.ofList ((ref.digest.toList.dropWhile (· ≠ ':')).tail)

/-- The files of the store by digest, `<base>/<prefix>/<digest>`. -/
abbrev Blobs := String → Option ByteArray

inductive StoreError
  | osError (message : String)
  | notFound (message : String)
  | tooLarge (message : String)
  | corruption (message : String)
  deriving DecidableEq

/-- What goes wrong in a write: the directory is not made, a step of the atomic write
fails, the blob cannot be read before or after it. -/
structure WriteFaults where
  mkdir : Option String := none
  unreadableBefore : Bool := false
  fails : WriteStep → Option String := fun _ => none
  unreadableAfter : Bool := false

section

variable (sha256 : ByteArray → String)

/-- `_matches`, `artifacts.py:88-97` -/
def matchesDigest (unreadable : Bool) (blob : Option ByteArray) (digestHash : String) : Bool :=
  !unreadable && blob.any fun content => sha256 content = digestHash

/-- The blob of a digest after the first test of a write, and the `OSError` it raises.
`artifacts.py:42-43` -/
def replaceBlob (blob : Option ByteArray) (content : ByteArray) (faults : WriteFaults) :
    Option ByteArray × Option String :=
  if matchesDigest sha256 faults.unreadableBefore blob (sha256 content) then (blob, none)
  else
    let out := atomicWriteBytes faults.fails content { target := blob }
    (out.1.target, out.2)

/-- `write`, `artifacts.py:36-53`: what it returns or raises, and the blobs after it. -/
def write (blobs : Blobs) (content : ByteArray) (mediaType : String) (faults : WriteFaults) :
    Except StoreError ArtifactRef × Blobs :=
  let digestHash := sha256 content
  match faults.mkdir with
  | some error => (.error (.osError error), blobs)
  | none =>
    let out := replaceBlob sha256 (blobs digestHash) content faults
    let after := Function.update blobs digestHash out.1
    match out.2 with
    | some error => (.error (.osError error), after)
    | none =>
      if matchesDigest sha256 faults.unreadableAfter (after digestHash) digestHash then
        (.ok { digest := "sha256:" ++ digestHash, mediaType, sizeBytes := content.size }, after)
      else
        (.error (.corruption ("Artifact digest mismatch after write: sha256:" ++ digestHash)),
          after)

/-- `read`, `artifacts.py:55-70` -/
def read (maxReadBytes : Nat) (blobs : Blobs) (ref : ArtifactRef) : Except StoreError ByteArray :=
  match blobs ref.digestHash with
  | none => .error (.notFound ("Artifact not found: " ++ ref.digest))
  | some blob =>
    let content := blob.extract 0 (maxReadBytes + 1)
    if content.size > maxReadBytes then
      .error (.tooLarge ("Artifact exceeds read limit of " ++ toString maxReadBytes ++ " bytes: " ++
        ref.digest))
    else if sha256 content ≠ ref.digestHash then
      .error (.corruption ("Artifact digest mismatch: " ++ ref.digest))
    else .ok content

/-- `verify`, `artifacts.py:80-84` -/
def verify (blobs : Blobs) (ref : ArtifactRef) : Bool :=
  matchesDigest sha256 false (blobs ref.digestHash) ref.digestHash

/-- What happens to a store: a call, or a blob is changed, cut short or deleted. -/
inductive StoreMove
  | write (content : ByteArray) (mediaType : String) (faults : WriteFaults)
  | read (ref : ArtifactRef)
  | verify (ref : ArtifactRef)
  | damage (digestHash : String) (blob : Option ByteArray)

/-- The blobs after a move; a read and a verification change none. -/
def step (blobs : Blobs) : StoreMove → Blobs
  | .write content mediaType faults => (write sha256 blobs content mediaType faults).2
  | .read _ => blobs
  | .verify _ => blobs
  | .damage digestHash blob => Function.update blobs digestHash blob

def run (blobs : Blobs) (moves : List StoreMove) : Blobs := moves.foldl (step sha256) blobs

end

/-- A move that damages the blob of a digest. -/
def StoreMove.damages (digestHash : String) : StoreMove → Prop
  | .damage d _ => d = digestHash
  | _ => False

variable {sha256 : ByteArray → String} {blobs : Blobs} {content : ByteArray} {mediaType : String}
  {faults : WriteFaults} {ref : ArtifactRef} {digestHash : String}

/-! ## Writes -/

/-- The blob a write leaves: the one there was, or the content. -/
theorem replaceBlob_fst (blob : Option ByteArray) :
    (replaceBlob sha256 blob content faults).1 = blob ∨
      (replaceBlob sha256 blob content faults).1 = some content := by
  unfold replaceBlob
  split
  · exact .inl rfl
  · dsimp only
    cases h : stepsThrough faults.fails { target := blob } with
    | true =>
      rw [atomicWriteBytes_through content h]
      exact .inr rfl
    | false =>
      obtain ⟨error, hshort⟩ := atomicWriteBytes_short content h
      rw [hshort]
      exact .inl rfl

/-- A write changes no blob but its own, which it leaves alone or replaces by the content. -/
theorem write_blobs : (write sha256 blobs content mediaType faults).2 = blobs ∨
    (write sha256 blobs content mediaType faults).2 =
      Function.update blobs (sha256 content) (some content) := by
  unfold write
  dsimp only
  cases faults.mkdir with
  | some error => exact .inl rfl
  | none =>
    have hafter : ∀ out, out = blobs (sha256 content) ∨ out = some content →
        Function.update blobs (sha256 content) out = blobs ∨
          Function.update blobs (sha256 content) out =
            Function.update blobs (sha256 content) (some content) := by
      intro out h
      rcases h with rfl | rfl
      · exact .inl (Function.update_eq_self _ _)
      · exact .inr rfl
    dsimp only
    split
    · exact hafter _ (replaceBlob_fst _)
    · split
      · exact hafter _ (replaceBlob_fst _)
      · exact hafter _ (replaceBlob_fst _)

theorem matchesDigest_true {unreadable : Bool} {blob : Option ByteArray}
    (h : matchesDigest sha256 unreadable blob digestHash = true) :
    ∃ b, blob = some b ∧ sha256 b = digestHash := by
  unfold matchesDigest at h
  rw [Bool.and_eq_true] at h
  cases blob with
  | none => cases h.2
  | some b => exact ⟨b, rfl, of_decide_eq_true h.2⟩

theorem digestHash_written (digestHash mediaType : String) (sizeBytes : Nat) :
    ArtifactRef.digestHash { digest := "sha256:" ++ digestHash, mediaType, sizeBytes } =
      digestHash := by
  unfold ArtifactRef.digestHash
  rw [String.toList_append]
  exact String.ofList_toList

/-- A write that returns has checked its blob. -/
theorem write_ok (h : (write sha256 blobs content mediaType faults).1 = .ok ref) :
    ref = { digest := "sha256:" ++ sha256 content, mediaType, sizeBytes := content.size } ∧
    ∃ b, (write sha256 blobs content mediaType faults).2 (sha256 content) = some b ∧
      sha256 b = sha256 content := by
  unfold write at h ⊢
  dsimp only at h ⊢
  cases hmkdir : faults.mkdir with
  | some error =>
    rw [hmkdir] at h
    cases h
  | none =>
    rw [hmkdir] at h
    dsimp only at h ⊢
    cases hout : (replaceBlob sha256 (blobs (sha256 content)) content faults).2 with
    | some error =>
      rw [hout] at h
      cases h
    | none =>
      rw [hout] at h
      dsimp only at h ⊢
      split at h
      · rename_i hmatch
        rw [if_pos hmatch]
        exact ⟨(Except.ok.inj h).symm, matchesDigest_true hmatch⟩
      · cases h

/-! ## Runs -/

/-- A blob that is its digest's content stays so until it is damaged. -/
theorem step_intact (hinj : Function.Injective sha256) {m : StoreMove}
    (hm : ¬m.damages (sha256 content)) (h : blobs (sha256 content) = some content) :
    step sha256 blobs m (sha256 content) = some content := by
  cases m with
  | read ref => exact h
  | verify ref => exact h
  | damage d blob =>
    have hne : sha256 content ≠ d := fun heq => hm heq.symm
    rw [step, Function.update_of_ne hne]
    exact h
  | write other mediaType faults =>
    rw [step]
    rcases @write_blobs sha256 blobs other mediaType faults with hsame | hnew
    · rwa [hsame]
    · rw [hnew]
      by_cases heq : sha256 content = sha256 other
      · rw [heq, Function.update_self, hinj heq]
      · rwa [Function.update_of_ne heq]

theorem run_intact (hinj : Function.Injective sha256) {moves : List StoreMove}
    (hm : ∀ m ∈ moves, ¬m.damages (sha256 content))
    (h : blobs (sha256 content) = some content) :
    run sha256 blobs moves (sha256 content) = some content := by
  unfold run
  induction moves generalizing blobs with
  | nil => exact h
  | cons m moves ih =>
    exact ih (fun n hn => hm n (List.mem_cons_of_mem _ hn))
      (step_intact hinj (hm m List.mem_cons_self) h)

/-! ## Reads -/

/-- What a read gives has the digest that was asked for. -/
theorem read_ok {maxReadBytes : Nat} (h : read sha256 maxReadBytes blobs ref = .ok content) :
    sha256 content = ref.digestHash := by
  unfold read at h
  split at h
  · cases h
  · dsimp only at h
    split at h
    · cases h
    · split at h
      · cases h
      · rename_i hdigest
        obtain rfl := Except.ok.inj h
        exact not_not.mp hdigest

/-- A read of an intact blob. -/
theorem read_intact {maxReadBytes : Nat} (h : blobs ref.digestHash = some content)
    (hdigest : sha256 content = ref.digestHash) :
    read sha256 maxReadBytes blobs ref =
      if content.size ≤ maxReadBytes then .ok content
      else .error (.tooLarge ("Artifact exceeds read limit of " ++ toString maxReadBytes ++
        " bytes: " ++ ref.digest)) := by
  unfold read
  rw [h]
  dsimp only
  by_cases hsize : content.size ≤ maxReadBytes
  · have hall : content.extract 0 (maxReadBytes + 1) = content := by
      refine ByteArray.ext ?_
      rw [ByteArray.data_extract]
      exact Array.extract_eq_self_of_le (Nat.le_succ_of_le hsize)
    rw [hall, if_neg (by omega), if_neg (not_not.mpr hdigest), if_pos hsize]
  · have hlarge : (content.extract 0 (maxReadBytes + 1)).size > maxReadBytes := by
      rw [ByteArray.size_extract]
      omega
    rw [if_pos hlarge, if_neg hsize]

/-- **Stored artifacts.** In whatever state the blobs are: a read gives the bytes of the
digest, a write touches its own blob only and returns when that is intact, and until it is
damaged the artifact is verified, and read back where the store reads that much. -/
theorem artifact_law (sha256 : ByteArray → String) (hinj : Function.Injective sha256)
    (maxReadBytes : Nat) (blobs : Blobs) :
    (∀ ref content, read sha256 maxReadBytes blobs ref = .ok content →
      sha256 content = ref.digestHash ∧
        ∀ asked, sha256 asked = ref.digestHash → content = asked) ∧
    (∀ content mediaType faults d, d ≠ sha256 content →
      (write sha256 blobs content mediaType faults).2 d = blobs d) ∧
    ∀ content mediaType faults ref,
      (write sha256 blobs content mediaType faults).1 = .ok ref →
        ref.digestHash = sha256 content ∧
        (write sha256 blobs content mediaType faults).2 (sha256 content) = some content ∧
        ∀ moves : List StoreMove, (∀ m ∈ moves, ¬m.damages (sha256 content)) →
          verify sha256
            (run sha256 (write sha256 blobs content mediaType faults).2 moves) ref = true ∧
          read sha256 maxReadBytes
              (run sha256 (write sha256 blobs content mediaType faults).2 moves) ref =
            if content.size ≤ maxReadBytes then .ok content
            else .error (.tooLarge ("Artifact exceeds read limit of " ++ toString maxReadBytes ++
              " bytes: " ++ ref.digest)) := by
  refine ⟨?_, ?_, ?_⟩
  · intro ref content h
    have hdigest := read_ok h
    exact ⟨hdigest, fun asked hasked => hinj (hdigest.trans hasked.symm)⟩
  · intro content mediaType faults d hd
    rcases @write_blobs sha256 blobs content mediaType faults with hsame | hnew
    · rw [hsame]
    · rw [hnew, Function.update_of_ne hd]
  · intro content mediaType faults ref h
    obtain ⟨href, b, hb, hsame⟩ := write_ok h
    rw [hinj hsame] at hb
    have hhash : ref.digestHash = sha256 content := by
      rw [href]
      exact digestHash_written _ _ _
    refine ⟨hhash, hb, ?_⟩
    intro moves hmoves
    have hblob := run_intact hinj hmoves hb
    rw [← hhash] at hblob
    refine ⟨?_, read_intact hblob hhash.symm⟩
    unfold verify matchesDigest
    rw [hblob, hhash]
    simp

/-! ## A store with a small limit -/

def four : ByteArray := "four".toUTF8

/-- A hash without collisions that gives `four` its digest. -/
def sampleHash (content : ByteArray) : String :=
  if content = four then "04efaf080f5a3e74e1c29d1ca6a48569382cbbcd324e8d59d2b83ef21c039f00"
  else String.ofList ('~' :: content.data.toList.map fun b => Char.ofNat b.toNat)

theorem sampleHash_injective : Function.Injective sampleHash := by
  have hbyte : ∀ n < 256, (Char.ofNat n).toNat = n := by decide +kernel
  have hchar : Function.Injective fun b : UInt8 => Char.ofNat b.toNat := by
    intro b c h
    have hnat := congrArg Char.toNat h
    dsimp only at hnat
    rw [hbyte _ b.toNat_lt, hbyte _ c.toNat_lt] at hnat
    exact UInt8.toNat_inj.mp hnat
  have htilde : ∀ cs : List Char,
      "04efaf080f5a3e74e1c29d1ca6a48569382cbbcd324e8d59d2b83ef21c039f00" ≠
        String.ofList ('~' :: cs) := by
    intro cs h
    have hlist := congrArg (fun s => s.toList.head?) h
    simp at hlist
  intro x y h
  unfold sampleHash at h
  split at h
  · rename_i hx
    split at h
    · rename_i hy
      rw [hx, hy]
    · exact absurd h (htilde _)
  · split at h
    · exact absurd h.symm (htilde _)
    · have hlist := (List.cons.inj (String.ofList_injective h)).2
      exact ByteArray.ext (Array.ext' (List.map_injective_iff.mpr hchar hlist))

/-- The reference of `four`. -/
def fourRef : ArtifactRef :=
  { digest := "sha256:04efaf080f5a3e74e1c29d1ca6a48569382cbbcd324e8d59d2b83ef21c039f00"
    mediaType := "text/plain", sizeBytes := 4 }

theorem write_four : (write sampleHash (fun _ => none) four "text/plain" {}).1 = .ok fourRef := by
  decide +kernel

theorem read_four : read sampleHash 3 (write sampleHash (fun _ => none) four "text/plain" {}).2
    fourRef =
      .error (.tooLarge ("Artifact exceeds read limit of 3 bytes: " ++ fourRef.digest)) := by
  decide +kernel

/-- A store of four bytes gives them back. -/
theorem artifact_law_four : read sampleHash 4
    (write sampleHash (fun _ => none) four "text/plain" {}).2 fourRef = .ok four := by
  obtain ⟨-, -, hblob⟩ := (artifact_law sampleHash sampleHash_injective 4 fun _ => none).2.2
    four "text/plain" {} fourRef write_four
  exact (hblob [] (fun _ hm => by cases hm)).2

/-- A store of three bytes is given four and does not give them back. -/
theorem four_not_read_back : ¬∀ sha256 : ByteArray → String, Function.Injective sha256 →
    ∀ maxReadBytes blobs content mediaType faults ref,
      (write sha256 blobs content mediaType faults).1 = .ok ref →
        read sha256 maxReadBytes (write sha256 blobs content mediaType faults).2 ref =
          .ok content := by
  intro h
  have hread := h sampleHash sampleHash_injective 3 (fun _ => none) four "text/plain" {} fourRef
    write_four
  rw [read_four] at hread
  cases hread

end ArtifactStore

end Northstack
