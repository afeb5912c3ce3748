import Replog.Checker.History
import Replog.Hosting.DataDir
import Replog.Proto.Wire

/-!
# History files

One event a line, its fields separated by blanks: a `P` with an id and a topic, or a `C` with all
that is known of a consumed record. A run saves its history, and a later process loads it to verify
it again.
-/

namespace Replog.Checker
open Replog.Hosting (parseU64 parseU64_toDigits)
open Replog.Proto.Wire (utf8 fromUTF8_utf8)

inductive LoadError where
  | invalidUtf8
  | malformed (line : String)

def LoadError.message : LoadError → String
  | .invalidUtf8 => "stream did not contain valid UTF-8"
  | .malformed line => s!"malformed history line: {line}"

/-! ## Writing -/

def ProducedRecord.line (p : ProducedRecord) : String := s!"P {p.id} {p.topic}\n"

def ConsumedRecord.line (c : ConsumedRecord) : String :=
  s!"C {c.consumer} {c.generation} {c.topic} {c.partition} {c.offset} {c.id}\n"

def History.save (h : History) : List UInt8 :=
  (h.produced.map ProducedRecord.line ++ h.consumed.map ConsumedRecord.line).flatMap utf8

/-! ## Reading -/

/-- The bytes up to each newline, which goes with what it ends. -/
def splitLines : List UInt8 → List (List UInt8)
  | [] => []
  | b :: bytes =>
    if b = 10 then [b] :: splitLines bytes
    else
      match splitLines bytes with
      | [] => [[b]]
      | line :: lines => (b :: line) :: lines

/-- Drops the newline, and a carriage return in front of it. -/
def stripEnd (line : List Char) : List Char :=
  if line.getLast? = some '\n' then
    if line.dropLast.getLast? = some '\r' then line.dropLast.dropLast else line.dropLast
  else line

def readLine (bytes : List UInt8) : Except LoadError String :=
  match String.fromUTF8? ⟨bytes.toArray⟩ with
  | some s => .ok (String.ofList (stripEnd s.toList))
  | none => .error .invalidUtf8

/-- The Unicode property `White_Space`. -/
def isWhitespace (c : Char) : Bool :=
  let n := c.toNat
  9 ≤ n ∧ n ≤ 13 ∨ n = 0x20 ∨ n = 0x85 ∨ n = 0xA0 ∨ n = 0x1680 ∨ 0x2000 ≤ n ∧ n ≤ 0x200A ∨
    n = 0x2028 ∨ n = 0x2029 ∨ n = 0x202F ∨ n = 0x205F ∨ n = 0x3000

def splitWhitespace (line : String) : List String :=
  ((line.toList.splitOnP isWhitespace).filter (· ≠ [])).map String.ofList

/-- As `parseU64` with the bound of a `u32`. -/
def parseU32 (s : List Char) : Option ℕ := (parseU64 s).filter (· < 2 ^ 32)

/-- Takes one more line into the history. -/
def History.loadLine (h : History) (line : String) : Except LoadError History :=
  match splitWhitespace line with
  | ["P", id, topic] =>
    match parseU64 id.toList with
    | some id => .ok (h.recordProduced (UInt64.ofNat id) topic)
    | none => .error (.malformed line)
  | ["C", consumer, generation, topic, partition, offset, id] =>
    match parseU64 generation.toList, parseU32 partition.toList, parseU64 offset.toList,
        parseU64 id.toList with
    | some generation, some partition, some offset, some id =>
      .ok (h.recordConsumed consumer (UInt64.ofNat generation) topic (UInt32.ofNat partition)
        (UInt64.ofNat offset) (UInt64.ofNat id))
    | _, _, _, _ => .error (.malformed line)
  | [] => .ok h
  | _ => .error (.malformed line)

def History.load (bytes : List UInt8) : Except LoadError History :=
  (splitLines bytes).foldlM (fun h line => do h.loadLine (← readLine line)) .new

/-! ## Bytes and lines -/

private theorem utf8_ofList (l : List Char) : utf8 (String.ofList l) = l.flatMap String.utf8EncodeChar := by
  rw [utf8, String.toByteArray_ofList, List.utf8Encode, List.toList_data_toByteArray]

private theorem eq_newline_of_mem {c : Char} (h : (10 : UInt8) ∈ String.utf8EncodeChar c) : c = '\n' := by
  have hvalue : ∀ n, (10 : UInt8) = UInt8.ofNat n → 10 = n % 2 ^ 8 := fun n heq =>
    congrArg UInt8.toNat heq
  have hascii : c.val.toNat = 10 := by
    unfold String.utf8EncodeChar at h
    extract_lets v at h
    split_ifs at h <;> simp only [List.mem_cons, List.not_mem_nil, or_false] at h
    · have := hvalue _ h
      omega
    · obtain h | h := h <;> have := hvalue _ h <;> omega
    · obtain h | h | h := h <;> have := hvalue _ h <;> omega
    · obtain h | h | h | h := h <;> have := hvalue _ h <;> omega
  exact Char.ext (UInt32.toNat_inj.mp hascii)

private theorem splitLines_append {line : List UInt8} (hline : 10 ∉ line) (rest : List UInt8) :
    splitLines (line ++ 10 :: rest) = (line ++ [10]) :: splitLines rest := by
  induction line with
  | nil => rfl
  | cons b line ih =>
    rw [List.mem_cons, not_or] at hline
    rw [List.cons_append, splitLines, if_neg (Ne.symm hline.1), ih hline.2]
    rfl

/-- A text with a newline at its end and nowhere else. -/
def IsLine (text : String) : Prop := ∃ l, '\n' ∉ l ∧ text = String.ofList (l ++ ['\n'])

private theorem splitLines_utf8 {text : String} (h : IsLine text) (rest : List UInt8) :
    splitLines (utf8 text ++ rest) = utf8 text :: splitLines rest := by
  obtain ⟨l, hl, rfl⟩ := h
  have hbytes : (10 : UInt8) ∉ l.flatMap String.utf8EncodeChar := by
    intro hmem
    obtain ⟨c, hc, hbyte⟩ := List.mem_flatMap.mp hmem
    exact hl (eq_newline_of_mem hbyte ▸ hc)
  have hutf8 : utf8 (String.ofList (l ++ ['\n'])) = l.flatMap String.utf8EncodeChar ++ [10] := by
    rw [utf8_ofList, List.flatMap_append]
    rfl
  rw [hutf8, List.append_assoc]
  exact splitLines_append hbytes rest

private theorem splitLines_flatMap {texts : List String} (h : ∀ text ∈ texts, IsLine text) :
    splitLines (texts.flatMap utf8) = texts.map utf8 := by
  induction texts with
  | nil => rfl
  | cons text texts ih =>
    rw [List.forall_mem_cons] at h
    rw [List.flatMap_cons, splitLines_utf8 h.1, ih h.2, List.map_cons]

private theorem stripEnd_newline {l : List Char} (h : '\r' ∉ l) : stripEnd (l ++ ['\n']) = l := by
  have hlast : l.getLast? ≠ some '\r' := fun heq => h (List.mem_of_getLast? heq)
  rw [stripEnd, if_pos List.getLast?_concat, List.dropLast_concat, if_neg hlast]

private theorem readLine_utf8 (s : String) :
    readLine (utf8 s) = .ok (String.ofList (stripEnd s.toList)) := by
  rw [readLine, fromUTF8_utf8]

/-! ## Words -/

structure IsWord (s : String) : Prop where
  ne_empty : s ≠ ""
  solid : ∀ c ∈ s.toList, isWhitespace c = false

/-- The words with a blank between each two. -/
def spaced (words : List String) : List Char := [' '].intercalate (words.map String.toList)

theorem spaced_singleton (w : String) : spaced [w] = w.toList := by
  simp [spaced, List.intercalate]

theorem spaced_cons_cons (w w' : String) (words : List String) :
    spaced (w :: w' :: words) = w.toList ++ ' ' :: spaced (w' :: words) := by
  simp [spaced, List.intercalate]

private theorem splitOnP_spaced {w : String} {words : List String} (h : ∀ v ∈ w :: words, IsWord v) :
    (spaced (w :: words)).splitOnP isWhitespace = (w :: words).map String.toList := by
  induction words generalizing w with
  | nil =>
    rw [spaced_singleton, List.splitOnP_eq_singleton (h w List.mem_cons_self).solid]
    rfl
  | cons w' words ih =>
    rw [List.forall_mem_cons] at h
    rw [spaced_cons_cons, List.splitOnP_append_cons_of_forall_mem h.1.solid ' ' (by decide),
      ih h.2, List.map_cons (a := w)]

theorem splitWhitespace_spaced {w : String} {words : List String}
    (h : ∀ v ∈ w :: words, IsWord v) :
    splitWhitespace (String.ofList (spaced (w :: words))) = w :: words := by
  have hfull : ∀ l ∈ (w :: words).map String.toList, decide (l ≠ []) = true := by
    intro l hl
    obtain ⟨v, hv, rfl⟩ := List.mem_map.mp hl
    rw [decide_eq_true_iff, ne_eq, String.toList_eq_nil_iff]
    exact (h v hv).ne_empty
  rw [splitWhitespace, String.toList_ofList, splitOnP_spaced h, List.filter_eq_self.mpr hfull,
    List.map_map]
  exact (List.map_congr_left fun v _ => String.ofList_toList).trans (List.map_id _)

private theorem mem_spaced {words : List String} {c : Char} (h : c ∈ spaced words) :
    c = ' ' ∨ ∃ w ∈ words, c ∈ w.toList := by
  induction words with
  | nil => cases h
  | cons w words ih =>
    cases words with
    | nil =>
      rw [spaced_singleton] at h
      exact .inr ⟨w, List.mem_cons_self, h⟩
    | cons w' words =>
      rw [spaced_cons_cons, List.mem_append, List.mem_cons] at h
      obtain h | h | h := h
      · exact .inr ⟨w, List.mem_cons_self, h⟩
      · exact .inl h
      · exact (ih h).imp_right fun ⟨v, hv, hc⟩ => ⟨v, List.mem_cons_of_mem w hv, hc⟩

theorem notMem_spaced {words : List String} (h : ∀ w ∈ words, IsWord w) {c : Char}
    (hc : isWhitespace c = true) (hblank : c ≠ ' ') : c ∉ spaced words := by
  intro hmem
  obtain heq | ⟨w, hw, hcw⟩ := mem_spaced hmem
  · exact hblank heq
  · rw [(h w hw).solid c hcw] at hc
    cases hc

def wordsLine (words : List String) : String := String.ofList (spaced words ++ ['\n'])

theorem isLine_wordsLine {words : List String} (h : ∀ w ∈ words, IsWord w) :
    IsLine (wordsLine words) :=
  ⟨spaced words, notMem_spaced h (by decide) (by decide), rfl⟩

private theorem readLine_wordsLine {words : List String} (h : ∀ w ∈ words, IsWord w) :
    readLine (utf8 (wordsLine words)) = .ok (String.ofList (spaced words)) := by
  rw [readLine_utf8, wordsLine, String.toList_ofList,
    stripEnd_newline (notMem_spaced h (by decide) (by decide))]

/-! ## Numbers -/

private theorem isWhitespace_of_isDigit {c : Char} (h : c.isDigit = true) : isWhitespace c = false := by
  rw [Char.isDigit, Bool.and_eq_true, decide_eq_true_iff, decide_eq_true_iff] at h
  have hlo : 48 ≤ c.toNat := UInt32.le_iff_toNat_le.mp h.1
  have hhi : c.toNat ≤ 57 := UInt32.le_iff_toNat_le.mp h.2
  rw [isWhitespace, decide_eq_false_iff_not]
  omega

theorem isWord_toString (n : ℕ) : IsWord (toString n) where
  ne_empty := by
    rw [ne_eq, ← String.toList_eq_nil_iff]
    exact Nat.toList_repr ▸ Nat.toDigits_ne_nil
  solid := by
    intro c hc
    rw [toString, instToStringNat, Nat.toList_repr] at hc
    exact isWhitespace_of_isDigit (Nat.isDigit_of_mem_toDigits (by decide) (by decide) hc)

theorem parseU64_toString (n : UInt64) : parseU64 (toString n).toList = some n.toNat := by
  have h := parseU64_toDigits n.toNat_lt
  rw [← Nat.toList_repr] at h
  exact h

private theorem parseU32_toString (n : UInt32) : parseU32 (toString n).toList = some n.toNat := by
  have h := parseU64_toDigits (lt_trans n.toNat_lt (by decide))
  rw [← Nat.toList_repr] at h
  exact (congrArg (Option.filter _) h).trans (if_pos (by simpa using n.toNat_lt))

/-! ## Records -/

def ProducedRecord.words (p : ProducedRecord) : List String := ["P", toString p.id, p.topic]

def ConsumedRecord.words (c : ConsumedRecord) : List String :=
  ["C", c.consumer, toString c.generation, c.topic, toString c.partition, toString c.offset,
    toString c.id]

private theorem toString_string (s : String) : toString s = s := rfl

theorem ProducedRecord.line_eq (p : ProducedRecord) : p.line = wordsLine p.words := by
  apply String.toList_inj.mp
  simp [line, wordsLine, words, spaced, List.intercalate, toString_string]

theorem ConsumedRecord.line_eq (c : ConsumedRecord) : c.line = wordsLine c.words := by
  delta line words
  -- the digits do not matter, and are not to be computed with
  generalize toString c.generation = generation, toString c.partition = partition,
    toString c.offset = offset, toString c.id = id
  apply String.toList_inj.mp
  simp [wordsLine, spaced, List.intercalate, toString_string]

structure History.Named (h : History) : Prop where
  produced : ∀ p ∈ h.produced, IsWord p.topic
  consumed : ∀ c ∈ h.consumed, IsWord c.topic ∧ IsWord c.consumer

theorem isWord_produced {p : ProducedRecord} (h : IsWord p.topic) : ∀ w ∈ p.words, IsWord w := by
  rw [ProducedRecord.words, List.forall_mem_cons, List.forall_mem_cons, List.forall_mem_singleton]
  exact ⟨⟨by decide, by decide⟩, isWord_toString p.id.toNat, h⟩

theorem isWord_consumed {c : ConsumedRecord} (h : IsWord c.topic ∧ IsWord c.consumer) :
    ∀ w ∈ c.words, IsWord w := by
  rw [ConsumedRecord.words]
  simp only [List.forall_mem_cons]
  exact ⟨⟨by decide, by decide⟩, h.2, isWord_toString c.generation.toNat, h.1,
    isWord_toString c.partition.toNat, isWord_toString c.offset.toNat,
    isWord_toString c.id.toNat, fun _ hw => absurd hw List.not_mem_nil⟩

section Loading
variable {line consumer generation topic partition offset id : String}

private theorem loadLine_p (hline : splitWhitespace line = ["P", id, topic]) {n : ℕ}
    (hid : parseU64 id.toList = some n) (h : History) :
    h.loadLine line = .ok (h.recordProduced (UInt64.ofNat n) topic) := by
  simp only [History.loadLine, hline, hid]

private theorem loadLine_c
    (hline : splitWhitespace line = ["C", consumer, generation, topic, partition, offset, id])
    {g p o n : ℕ} (hgeneration : parseU64 generation.toList = some g)
    (hpartition : parseU32 partition.toList = some p) (hoffset : parseU64 offset.toList = some o)
    (hid : parseU64 id.toList = some n) (h : History) :
    h.loadLine line = .ok (h.recordConsumed consumer (UInt64.ofNat g) topic (UInt32.ofNat p)
      (UInt64.ofNat o) (UInt64.ofNat n)) := by
  simp only [History.loadLine, hline, hgeneration, hpartition, hoffset, hid]

end Loading

private theorem loadLine_produced {p : ProducedRecord} (hp : IsWord p.topic) (h : History) :
    h.loadLine (String.ofList (spaced p.words)) = .ok (h.recordProduced p.id p.topic) := by
  have hload := loadLine_p (splitWhitespace_spaced (isWord_produced hp)) (parseU64_toString p.id) h
  rwa [UInt64.ofNat_toNat] at hload

private theorem loadLine_consumed {c : ConsumedRecord} (hc : IsWord c.topic ∧ IsWord c.consumer)
    (h : History) :
    h.loadLine (String.ofList (spaced c.words)) =
      .ok (h.recordConsumed c.consumer c.generation c.topic c.partition c.offset c.id) := by
  have hload := loadLine_c (splitWhitespace_spaced (isWord_consumed hc))
    (parseU64_toString c.generation) (parseU32_toString c.partition) (parseU64_toString c.offset)
    (parseU64_toString c.id) h
  rwa [UInt64.ofNat_toNat, UInt64.ofNat_toNat, UInt64.ofNat_toNat, UInt32.ofNat_toNat] at hload

/-! ## Files -/

/-- Loading line by line is a fold over the records of the lines. -/
theorem foldlM_lines {α : Type} (words : α → List String) (record : History → α → History)
    {events : List α} (hwords : ∀ e ∈ events, ∀ w ∈ words e, IsWord w)
    (hload : ∀ e ∈ events, ∀ h : History,
      h.loadLine (String.ofList (spaced (words e))) = .ok (record h e)) (h : History) :
    (events.map fun e => utf8 (wordsLine (words e))).foldlM
      (fun h line => do h.loadLine (← readLine line)) h = .ok (events.foldl record h) := by
  induction events generalizing h with
  | nil => rfl
  | cons e events ih =>
    rw [List.forall_mem_cons] at hwords hload
    rw [List.map_cons, List.foldlM_cons, readLine_wordsLine hwords.1]
    change (h.loadLine _ >>= fun h => _) = _
    rw [hload.1 h]
    exact ih hwords.2 hload.2 _

private theorem foldl_recordProduced (events : List ProducedRecord) (h : History) :
    events.foldl (fun h p => h.recordProduced p.id p.topic) h =
      { h with produced := h.produced ++ events } := by
  induction events generalizing h with
  | nil => rw [List.append_nil]; rfl
  | cons p events ih => rw [List.foldl_cons, ih]; simp [History.recordProduced]

private theorem foldl_recordConsumed (events : List ConsumedRecord) (h : History) :
    events.foldl (fun h c =>
      h.recordConsumed c.consumer c.generation c.topic c.partition c.offset c.id) h =
      { h with consumed := h.consumed ++ events } := by
  induction events generalizing h with
  | nil => rw [List.append_nil]; rfl
  | cons p events ih => rw [List.foldl_cons, ih]; simp [History.recordConsumed]

private theorem History.save_eq (h : History) :
    h.save = (h.produced.map (fun p => wordsLine p.words) ++
      h.consumed.map fun c => wordsLine c.words).flatMap utf8 := by
  rw [save, List.map_congr_left fun p _ => ProducedRecord.line_eq p,
    List.map_congr_left fun c _ => ConsumedRecord.line_eq c]

private theorem splitLines_save {h : History} (hnamed : h.Named) :
    splitLines h.save = h.produced.map (fun p => utf8 (wordsLine p.words)) ++
      h.consumed.map fun c => utf8 (wordsLine c.words) := by
  rw [h.save_eq, splitLines_flatMap, List.map_append, List.map_map, List.map_map]
  · rfl
  · intro text htext
    obtain htext | htext := List.mem_append.mp htext
    · obtain ⟨p, hp, rfl⟩ := List.mem_map.mp htext
      exact isLine_wordsLine (isWord_produced (hnamed.produced p hp))
    · obtain ⟨c, hc, rfl⟩ := List.mem_map.mp htext
      exact isLine_wordsLine (isWord_consumed (hnamed.consumed c hc))

private theorem load_save {h : History} (hnamed : h.Named) : History.load h.save = .ok h := by
  rw [History.load, splitLines_save hnamed, List.foldlM_append,
    foldlM_lines ProducedRecord.words (fun h p => h.recordProduced p.id p.topic)
      (fun p hp => isWord_produced (hnamed.produced p hp))
      fun p hp => loadLine_produced (hnamed.produced p hp),
    foldl_recordProduced]
  refine (foldlM_lines ConsumedRecord.words
    (fun h c => h.recordConsumed c.consumer c.generation c.topic c.partition c.offset c.id)
    (fun c hc => isWord_consumed (hnamed.consumed c hc))
    (fun c hc => loadLine_consumed (hnamed.consumed c hc)) _).trans ?_
  rw [foldl_recordConsumed]
  rfl

/-- What was saved comes back, and so does its verdict. -/
theorem history_file_roundtrip {h : History} (hnamed : h.Named) :
    ∃ h', History.load h.save = .ok h' ∧ h'.produced = h.produced ∧ h'.consumed = h.consumed ∧
      h'.verifyFromStart = h.verifyFromStart :=
  ⟨h, load_save hnamed, rfl, rfl, rfl⟩

/-- Two records acked, one of them consumed twice. -/
def savedHistory : History where
  produced := [{ id := 7, topic := "t" }, { id := 8, topic := "u" }]
  consumed :=
    [{ consumer := "c1", generation := 1, topic := "t", partition := 0, offset := 0, id := 7 },
      { consumer := "c2", generation := 2, topic := "t", partition := 0, offset := 0, id := 7 },
      { consumer := "c1", generation := 1, topic := "u", partition := 3, offset := 5, id := 8 }]

theorem history_file_roundtrip_saved :
    ∃ h', History.load savedHistory.save = .ok h' ∧ h'.produced = savedHistory.produced ∧
      h'.consumed = savedHistory.consumed ∧
      h'.verifyFromStart = savedHistory.verifyFromStart := by
  have ht : IsWord "t" := ⟨by decide, by decide⟩
  have hu : IsWord "u" := ⟨by decide, by decide⟩
  have hc₁ : IsWord "c1" := ⟨by decide, by decide⟩
  have hc₂ : IsWord "c2" := ⟨by decide, by decide⟩
  have hproduced : ∀ p ∈ savedHistory.produced, IsWord p.topic :=
    List.forall_mem_cons.mpr ⟨ht, List.forall_mem_singleton.mpr hu⟩
  have hconsumed : ∀ c ∈ savedHistory.consumed, IsWord c.topic ∧ IsWord c.consumer :=
    List.forall_mem_cons.mpr ⟨⟨ht, hc₁⟩, List.forall_mem_cons.mpr ⟨⟨ht, hc₂⟩,
      List.forall_mem_singleton.mpr ⟨hu, hc₁⟩⟩⟩
  exact history_file_roundtrip ⟨hproduced, hconsumed⟩

end Replog.Checker
