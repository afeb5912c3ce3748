import Replog.Proto.Frames

/-!
# Reading a stream of frames

A connection reads frame after frame until the peer closes it. What the peer has sent is a row of
complete frames and a rest that is none; a clean close leaves no rest.
-/

namespace Replog.Proto
open Replog.LittleEndian

def BodyFits (body : List UInt8) : Prop := 1 ≤ body.length ∧ body.length ≤ MAX_FRAME_BYTES

/-- The body behind its length field. -/
def framed (body : List UInt8) : List UInt8 := leBytes 4 body.length ++ body

/-- A stream that begins with a complete frame. -/
def StartsFrame (stream : List UInt8) : Prop :=
  ∃ body rest, BodyFits body ∧ stream = framed body ++ rest

/-- The complete frames at the front of a stream, as many as there are, and the rest. -/
structure FramesAt (stream : List UInt8) (bodies : List (List UInt8)) (rest : List UInt8) :
    Prop where
  fits : ∀ body ∈ bodies, BodyFits body
  stream_eq : stream = bodies.flatMap framed ++ rest
  maximal : ¬ StartsFrame rest

/-! ## One frame -/

theorem length_framed (body : List UInt8) : (framed body).length = 4 + body.length := by
  rw [framed, List.length_append, length_leBytes]

theorem readFrame_framed {body : List UInt8} (h : BodyFits body) (rest : List UInt8) :
    readFrame (framed body ++ rest) = .ok (some (body, rest)) := by
  obtain ⟨hpos, hmax⟩ := h
  have hlen : body.length < 256 ^ 4 := by
    rw [MAX_FRAME_BYTES] at hmax
    omega
  have htake : (framed body ++ rest).take 4 = leBytes 4 body.length := by
    rw [framed, List.append_assoc, List.take_left' (length_leBytes ..)]
  have hdrop : (framed body ++ rest).drop 4 = body ++ rest := by
    rw [framed, List.append_assoc, List.drop_left' (length_leBytes ..)]
  have hsize : (framed body ++ rest).length = 4 + body.length + rest.length := by
    rw [List.length_append, length_framed]
  rw [readFrame, if_neg (by omega), htake]
  dsimp only
  rw [leValue_leBytes_of_lt hlen, if_neg (by omega), if_neg (by omega), hdrop,
    List.take_left' rfl, List.drop_left' (length_framed body)]

/-- What is read is a complete frame at the front. -/
theorem framed_of_readFrame {stream body rest : List UInt8}
    (h : readFrame stream = .ok (some (body, rest))) :
    BodyFits body ∧ stream = framed body ++ rest := by
  rw [readFrame] at h
  split at h
  · cases h
  dsimp only at h
  split at h
  · cases h
  rename_i hlong hbounds
  split at h
  · cases h
  rename_i hwhole
  simp only [Except.ok.injEq, Option.some.injEq, Prod.mk.injEq] at h
  obtain ⟨rfl, rfl⟩ := h
  obtain ⟨len, hlen⟩ : ∃ len, leValue (stream.take 4) = len := ⟨_, rfl⟩
  rw [hlen] at hbounds hwhole ⊢
  have hbody : ((stream.drop 4).take len).length = len := by
    rw [List.length_take, List.length_drop]
    omega
  have hfield : (stream.take 4).length = 4 := by
    rw [List.length_take]
    omega
  have hlt := leValue_lt (stream.take 4)
  rw [hlen, hfield] at hlt
  refine ⟨⟨by omega, by omega⟩, ?_⟩
  have hsame : leBytes 4 len = stream.take 4 :=
    leValue_inj (by rw [length_leBytes, hfield]) (by rw [leValue_leBytes_of_lt hlt, hlen])
  rw [framed, hbody, hsame, List.append_assoc, ← List.drop_drop, List.take_append_drop,
    List.take_append_drop]

private theorem startsFrame_iff (stream : List UInt8) :
    StartsFrame stream ↔ ∃ body rest, readFrame stream = .ok (some (body, rest)) := by
  constructor
  · rintro ⟨body, rest, hfits, rfl⟩
    exact ⟨body, rest, readFrame_framed hfits rest⟩
  · rintro ⟨body, rest, hread⟩
    exact ⟨body, rest, framed_of_readFrame hread⟩

private theorem readFrame_end {stream : List UInt8} (h : ¬ StartsFrame stream) :
    (stream.length < 4 ∧ readFrame stream = .ok none) ∨
      (4 ≤ stream.length ∧ ∃ e, readFrame stream = .error e) := by
  by_cases hshort : stream.length < 4
  · exact .inl ⟨hshort, by rw [readFrame, if_pos hshort]⟩
  · refine .inr ⟨Nat.le_of_not_lt hshort, ?_⟩
    cases hread : readFrame stream with
    | error e => exact ⟨e, rfl⟩
    | ok result =>
      cases result with
      | none =>
        rw [readFrame, if_neg hshort] at hread
        dsimp only at hread
        split_ifs at hread
        cases hread
      | some found => exact absurd ((startsFrame_iff stream).mpr ⟨found.1, found.2, hread⟩) h

/-! ## The loop -/

private theorem length_lt_of_readFrame {stream body rest : List UInt8}
    (h : readFrame stream = .ok (some (body, rest))) : rest.length < stream.length := by
  obtain ⟨hfits, rfl⟩ := framed_of_readFrame h
  rw [List.length_append, length_framed]
  omega

/-- Calls `readFrame` until it returns no frame: the bodies in order, and how it ended. -/
def readFrames (stream : List UInt8) : List (List UInt8) × Except FrameError Unit :=
  match _h : readFrame stream with
  | .error e => ([], .error e)
  | .ok none => ([], .ok ())
  | .ok (some (body, rest)) =>
    let r := readFrames rest
    (body :: r.1, r.2)
termination_by stream.length
decreasing_by exact length_lt_of_readFrame ‹_›

private theorem readFrames_framed {body : List UInt8} (h : BodyFits body) (rest : List UInt8) :
    readFrames (framed body ++ rest) = (body :: (readFrames rest).1, (readFrames rest).2) := by
  have hread := readFrame_framed h rest
  rw [readFrames]
  split
  · rename_i hcontra
    rw [hread] at hcontra
    cases hcontra
  · rename_i hcontra
    rw [hread] at hcontra
    cases hcontra
  · rename_i hsame
    rw [hread] at hsame
    cases hsame
    rfl

private theorem readFrames_end {stream : List UInt8} (h : ¬ StartsFrame stream) :
    (readFrames stream).1 = [] ∧ ((readFrames stream).2 = .ok () ↔ stream.length < 4) := by
  rw [readFrames]
  rcases readFrame_end h with ⟨hshort, hread⟩ | ⟨hlong, e, hread⟩
  · split
    · rename_i hcontra
      rw [hread] at hcontra
      cases hcontra
    · exact ⟨rfl, fun _ => hshort, fun _ => rfl⟩
    · rename_i hcontra
      rw [hread] at hcontra
      cases hcontra
  · split
    · exact ⟨rfl, nofun, fun hshort => absurd hshort (by omega)⟩
    · rename_i hcontra
      rw [hread] at hcontra
      cases hcontra
    · rename_i hcontra
      rw [hread] at hcontra
      cases hcontra

/-- The loop returns the frames there are, and ends well on any rest below four bytes. -/
theorem readFrames_of_framesAt {stream rest : List UInt8} {bodies : List (List UInt8)}
    (h : FramesAt stream bodies rest) :
    (readFrames stream).1 = bodies ∧ ((readFrames stream).2 = .ok () ↔ rest.length < 4) := by
  obtain ⟨hfits, rfl, hmaximal⟩ := h
  induction bodies with
  | nil => exact readFrames_end hmaximal
  | cons body bodies ih =>
    obtain ⟨hbody, hbodies⟩ := List.forall_mem_cons.mp hfits
    obtain ⟨hsame, hend⟩ := ih hbodies
    rw [List.flatMap_cons, List.append_assoc, readFrames_framed hbody]
    exact ⟨congrArg (body :: ·) hsame, hend⟩

/-- Every stream is cut into frames and a rest. -/
theorem exists_framesAt (stream : List UInt8) : ∃ bodies rest, FramesAt stream bodies rest := by
  by_cases hstarts : StartsFrame stream
  · obtain ⟨body, rest, hfits, rfl⟩ := hstarts
    obtain ⟨bodies, rest', hrest⟩ := exists_framesAt rest
    refine ⟨body :: bodies, rest', List.forall_mem_cons.mpr ⟨hfits, hrest.fits⟩, ?_, hrest.maximal⟩
    rw [List.flatMap_cons, List.append_assoc, ← hrest.stream_eq]
  · exact ⟨[], stream, nofun, rfl, hstarts⟩
termination_by stream.length
decreasing_by
  subst_vars
  rw [List.length_append, length_framed]
  omega

theorem FramesAt.unique {stream rest rest' : List UInt8} {bodies bodies' : List (List UInt8)}
    (h : FramesAt stream bodies rest) (h' : FramesAt stream bodies' rest') :
    bodies = bodies' ∧ rest = rest' := by
  have hbodies : bodies = bodies' :=
    (readFrames_of_framesAt h).1.symm.trans (readFrames_of_framesAt h').1
  subst hbodies
  exact ⟨rfl, List.append_cancel_left (h.stream_eq.symm.trans h'.stream_eq)⟩

/-- The loop returns the bodies of the frames the stream begins with, and ends well if and only if
they are all of it. -/
def Delivers (stream : List UInt8) : Prop :=
  ∃ bodies rest, FramesAt stream bodies rest ∧
    (∀ bodies' rest', FramesAt stream bodies' rest' → bodies' = bodies ∧ rest' = rest) ∧
    (readFrames stream).1 = bodies ∧ ((readFrames stream).2 = .ok () ↔ rest = [])

/-- It does so unless one to three bytes are left over. -/
theorem delivers_iff (stream : List UInt8) :
    Delivers stream ↔ ∀ bodies rest, FramesAt stream bodies rest → rest = [] ∨ 4 ≤ rest.length := by
  obtain ⟨bodies, rest, hframes⟩ := exists_framesAt stream
  obtain ⟨hbodies, hend⟩ := readFrames_of_framesAt hframes
  constructor
  · rintro ⟨bodies', rest', -, hunique, -, hclean⟩ bodies'' rest'' hframes''
    obtain ⟨-, rfl⟩ := hunique bodies'' rest'' hframes''
    obtain ⟨-, rfl⟩ := hframes.unique hframes''
    by_cases hshort : rest.length < 4
    · exact .inl (hclean.mp (hend.mpr hshort))
    · exact .inr (Nat.le_of_not_lt hshort)
  · intro hrest
    refine ⟨bodies, rest, hframes, fun bodies' rest' h => ?_, hbodies, hend.trans ⟨?_, ?_⟩⟩
    · exact h.unique hframes
    · intro hshort
      exact (hrest bodies rest hframes).resolve_right (Nat.not_le.mpr hshort)
    · rintro rfl
      exact Nat.succ_pos 3

/-- A stream that ends inside its first length field. -/
theorem delivers_cut_length : ¬ Delivers [5, 0] := by
  have hnone : ¬ StartsFrame [5, 0] := by
    rintro ⟨body, rest, -, hstream⟩
    have hlen := congrArg List.length hstream
    rw [List.length_append, length_framed] at hlen
    simp only [List.length_cons, List.length_nil] at hlen
    omega
  rintro ⟨bodies, rest, -, hunique, -, hclean⟩
  have hframes : FramesAt [5, 0] [] [5, 0] := ⟨nofun, rfl, hnone⟩
  obtain ⟨-, rfl⟩ := hunique [] [5, 0] hframes
  exact nomatch hclean.mp ((readFrames_of_framesAt hframes).2.mpr (by decide))

end Replog.Proto
