import Replog.Storage.SegmentReads

/-!
# Decoding forward from a position

A recovery, a read and the search for an offset all start at a position that the index names and
decode record by record from there. `Walk` is this, for any bytes and any position: what is found
need not be the records that were written.
-/

namespace Replog.Storage

/-- Decoding from position `p` on goes through the records and arrives at `q`. -/
inductive Walk (crc : List UInt8 → UInt32) (maxRecordBytes : ℕ) (bytes : List UInt8) :
    ℕ → List Record → ℕ → Prop
  | nil (p : ℕ) : Walk crc maxRecordBytes bytes p [] p
  | cons {p c q : ℕ} {r : Record} {rs : List Record}
      (hdecode : Record.decode crc (bytes.drop p) maxRecordBytes = .record r c)
      (h : Walk crc maxRecordBytes bytes (p + c) rs q) : Walk crc maxRecordBytes bytes p (r :: rs) q

variable {crc : List UInt8 → UInt32} {config : LogConfig} {maxRecordBytes : ℕ} {bytes : List UInt8}

/-- What is decoded at a position lies behind it in the bytes. -/
theorem decode_drop {p c : ℕ} {r : Record}
    (h : Record.decode crc (bytes.drop p) maxRecordBytes = .record r c) :
    c = r.encodedLen ∧ p + c ≤ bytes.length := by
  have hlen := Record.decode_encodedLen h
  obtain ⟨-, -, -, hle, -⟩ := Record.decode_eq_record_iff.mp h
  have hpos := r.encodedLen_pos
  rw [List.length_drop] at hle
  exact ⟨hlen, by omega⟩

namespace Walk

variable {p q u : ℕ} {rs ss : List Record}

theorem append (h : Walk crc maxRecordBytes bytes p rs q)
    (h' : Walk crc maxRecordBytes bytes q ss u) : Walk crc maxRecordBytes bytes p (rs ++ ss) u := by
  induction h with
  | nil p => exact h'
  | cons hdecode _ ih => exact .cons hdecode (ih h')

theorem split (h : Walk crc maxRecordBytes bytes p (rs ++ ss) q) :
    ∃ m, Walk crc maxRecordBytes bytes p rs m ∧ Walk crc maxRecordBytes bytes m ss q := by
  induction rs generalizing p with
  | nil => exact ⟨p, .nil p, h⟩
  | cons r rs ih =>
    cases h with
    | cons hdecode h =>
      obtain ⟨m, hfront, hback⟩ := ih h
      exact ⟨m, .cons hdecode hfront, hback⟩

theorem end_eq (h : Walk crc maxRecordBytes bytes p rs q) : q = p + totalLen rs := by
  induction h with
  | nil p => rfl
  | cons hdecode _ ih =>
    rw [ih, totalLen_cons, (decode_drop hdecode).1]
    omega

theorem le_length (h : Walk crc maxRecordBytes bytes p rs q) (hp : p ≤ bytes.length) :
    q ≤ bytes.length := by
  induction h with
  | nil p => exact hp
  | cons hdecode _ ih => exact ih (decode_drop hdecode).2

/-- Where a walk has got to after as many records is where any other one has. -/
theorem unique (h : Walk crc maxRecordBytes bytes p rs q)
    (h' : Walk crc maxRecordBytes bytes p ss u) (hlen : rs.length = ss.length) :
    rs = ss ∧ q = u := by
  induction h generalizing ss with
  | nil p =>
    cases h' with
    | nil => exact ⟨rfl, rfl⟩
    | cons => cases hlen
  | cons hdecode _ ih =>
    cases h' with
    | nil => cases hlen
    | cons hdecode' h' =>
      rw [hdecode] at hdecode'
      cases hdecode'
      obtain ⟨rfl, rfl⟩ := ih h' (Nat.succ.inj hlen)
      exact ⟨rfl, rfl⟩

end Walk

/-! ## Segments as they were written -/

/-- From the start of each record the walk goes through the records from there on. -/
theorem walk_encodeAll (hc : config.Valid) {n : ℕ} {chunk : List Record}
    (hnum : Numbered config n chunk) {j k : ℕ} (hj : j ≤ k) (hk : k ≤ chunk.length) :
    Walk crc config.maxRecordBytes (encodeAll crc chunk) (totalLen (chunk.take j))
      ((chunk.drop j).take (k - j)) (totalLen (chunk.take k)) := by
  obtain ⟨d, rfl⟩ := Nat.exists_eq_add_of_le hj
  rw [Nat.add_sub_cancel_left]
  induction d generalizing j with
  | zero => exact .nil _
  | succ d ih =>
    have hlt : j < chunk.length := by omega
    have hdrop : chunk.drop j = chunk[j] :: chunk.drop (j + 1) := List.drop_eq_getElem_cons hlt
    have hfrom := hnum.drop hlt.le
    rw [hdrop] at hfrom
    have hdecode := decode_encodeAll_cons crc hc hfrom []
    rw [List.append_nil, ← hdrop, ← drop_encodeAll] at hdecode
    have hnext : totalLen (chunk.take j) + chunk[j].encodedLen = totalLen (chunk.take (j + 1)) := by
      rw [List.take_succ_eq_append_getElem hlt, totalLen_append, totalLen_cons, totalLen_nil,
        Nat.add_zero]
    have hrest := @ih (j + 1) (by omega) (by omega)
    rw [hdrop, List.take_succ_cons]
    refine .cons hdecode ?_
    rw [hnext, show j + (d + 1) = j + 1 + d by omega]
    exact hrest

/-- A walk from the start goes through the records that were written. -/
theorem walk_start_iff (hc : config.Valid) {n k p : ℕ} {chunk : List Record}
    (hnum : Numbered config n chunk) (hk : k ≤ chunk.length) :
    (∃ rs, Walk crc config.maxRecordBytes (encodeAll crc chunk) 0 rs p ∧ rs.length = k) ↔
      p = totalLen (chunk.take k) := by
  have hwalk : Walk crc config.maxRecordBytes (encodeAll crc chunk) 0 (chunk.take k)
      (totalLen (chunk.take k)) := walk_encodeAll hc hnum (Nat.zero_le k) hk
  have hlen : (chunk.take k).length = k := by rw [List.length_take, Nat.min_eq_left hk]
  constructor
  · rintro ⟨rs, h, hrs⟩
    exact (h.unique hwalk (hrs.trans hlen.symm)).2
  · rintro rfl
    exact ⟨_, hwalk, hlen⟩

theorem walk_length_le (hc : config.Valid) {n p : ℕ} {chunk rs : List Record}
    (hnum : Numbered config n chunk)
    (h : Walk crc config.maxRecordBytes (encodeAll crc chunk) 0 rs p) :
    rs.length ≤ chunk.length := by
  by_contra hgt
  rw [← List.take_append_drop chunk.length rs] at h
  obtain ⟨m, hfront, hback⟩ := h.split
  have hwhole := @walk_encodeAll crc config hc _ _ hnum _ _ (Nat.zero_le _) le_rfl
  obtain ⟨-, rfl⟩ := hfront.unique hwhole (by simp; omega)
  rw [List.take_length] at hback
  obtain ⟨r, more, hmore⟩ := List.exists_cons_of_length_pos
    (show 0 < (rs.drop chunk.length).length by rw [List.length_drop]; omega)
  rw [hmore] at hback
  cases hback with
  | cons hdecode _ =>
    obtain ⟨hlen, hle⟩ := decode_drop hdecode
    have hpos := r.encodedLen_pos
    rw [length_encodeAll] at hle
    omega

/-! ## Loops along a walk -/

/-- Decoding from `p` passes records with offsets below `o` only and arrives at `q`. -/
def LeadsTo (crc : List UInt8 → UInt32) (maxRecordBytes : ℕ) (bytes : List UInt8) (o p q : ℕ) :
    Prop :=
  ∃ rs, Walk crc maxRecordBytes bytes p rs q ∧ ∀ r ∈ rs, r.offset < o

private theorem readLoop_walk (seg : Segment) {o p q : ℕ} {rs : List Record}
    (h : Walk crc config.maxRecordBytes bytes p rs q) (hlow : ∀ r ∈ rs, r.offset < o)
    (maxBytes start fuel pos : ℕ) (out : List Record) (used : ℕ) :
    seg.readLoop crc config o maxBytes start (fuel + rs.length) (bytes.drop p) pos out used =
      seg.readLoop crc config o maxBytes start fuel (bytes.drop q) (pos + totalLen rs) out
        used := by
  induction h generalizing pos with
  | nil p => rfl
  | @cons p c q r rs hdecode _ ih =>
    obtain ⟨hr, hrest⟩ := List.forall_mem_cons.mp hlow
    obtain ⟨rfl, -⟩ := decode_drop hdecode
    rw [List.length_cons, ← Nat.add_assoc, Segment.readLoop, hdecode]
    simp only [if_pos hr]
    rw [List.drop_drop, ih hrest, totalLen_cons, Nat.add_assoc]

private theorem positionLoop_walk {o p q : ℕ} {rs : List Record}
    (h : Walk crc config.maxRecordBytes bytes p rs q) (hlow : ∀ r ∈ rs, r.offset < o)
    (start fuel pos : ℕ) :
    Segment.positionLoop crc config o start (fuel + rs.length) (bytes.drop p) pos =
      Segment.positionLoop crc config o start fuel (bytes.drop q) (pos + totalLen rs) := by
  induction h generalizing pos with
  | nil p => rfl
  | @cons p c q r rs hdecode _ ih =>
    obtain ⟨hr, hrest⟩ := List.forall_mem_cons.mp hlow
    obtain ⟨rfl, -⟩ := decode_drop hdecode
    rw [List.length_cons, ← Nat.add_assoc, Segment.positionLoop, hdecode]
    simp only [if_neg hr.ne]
    rw [List.drop_drop, ih hrest, totalLen_cons, Nat.add_assoc]

/-- A segment and its file, whatever its index says. -/
structure Shape (crc : List UInt8 → UInt32) (config : LogConfig) (dir : Dir) (seg : Segment)
    (base : ℕ) (chunk : List Record) : Prop where
  base_eq : seg.baseOffset = base
  next_eq : seg.nextOffset = base + chunk.length
  size_eq : seg.size = totalLen chunk
  log_file : ∃ synced, dir.log base = some ⟨encodeAll crc chunk, synced⟩
  numbered : Numbered config base chunk

theorem SegmentOk.shape {dir : Dir} {seg : Segment} {base : ℕ} {chunk : List Record}
    (h : SegmentOk crc config dir seg base chunk) : Shape crc config dir seg base chunk :=
  ⟨h.base_eq, h.next_eq, h.size_eq, h.log_file, h.numbered⟩

theorem Shape.committedFrom {fs : Fs} {seg : Segment} {base start : ℕ} {chunk : List Record}
    (h : Shape crc config fs.dir seg base chunk) (hstart : start ≤ totalLen chunk) :
    (seg.committedFrom start).run fs = .ok ((encodeAll crc chunk).drop start) fs := by
  obtain ⟨synced, hfile⟩ := h.log_file
  rw [← h.base_eq] at hfile
  rw [Segment.committedFrom, run_bind_ok (FsM.run_readLog hfile),
    run_bind_ok (FsM.run_checkedSub (h.size_eq ▸ hstart) fs), List.take_of_length_le]
  · rfl
  · rw [List.length_drop, length_encodeAll, h.size_eq]

/-- A read whose start leads to the record at its offset returns what is there. -/
theorem Shape.readFrom (hc : config.Valid) {fs : Fs} {seg : Segment} {base k : ℕ}
    {chunk : List Record} (h : Shape crc config fs.dir seg base chunk) (hk : k < chunk.length)
    (hleads : LeadsTo crc config.maxRecordBytes (encodeAll crc chunk) (base + k)
      (seg.startPos (base + k)) (totalLen (chunk.take k))) (maxBytes : ℕ) :
    ∃ run, ReadRun maxBytes (chunk.drop k) run ∧
      (seg.readFrom crc config (base + k) maxBytes).run fs = .ok run fs := by
  obtain ⟨rs, hwalk, hlow⟩ := hleads
  have hend := hwalk.end_eq
  have hskipped := length_le_totalLen rs
  have hleft := length_le_totalLen (chunk.drop k)
  have hsplit : totalLen (chunk.take k) + totalLen (chunk.drop k) = totalLen chunk := by
    rw [← totalLen_append, List.take_append_drop]
  obtain ⟨fuel, hfuel⟩ := Nat.exists_eq_add_of_le' (show rs.length ≤
    ((encodeAll crc chunk).drop (seg.startPos (base + k))).length + 1 by
      rw [List.length_drop, length_encodeAll]
      omega)
  rw [List.length_drop, length_encodeAll] at hfuel
  obtain ⟨run, hrun, hread⟩ := readLoop_spec crc hc seg maxBytes (seg.startPos (base + k)) fs
    (h.numbered.drop hk.le) (show 0 < (chunk.drop k).length by rw [List.length_drop]; omega)
    (0 + totalLen rs) (show (chunk.drop k).length < fuel by omega)
  refine ⟨run, hrun, ?_⟩
  rw [Segment.readFrom, if_neg (by rw [h.base_eq, h.next_eq]; omega),
    run_bind_ok (h.committedFrom (by omega)), List.length_drop, length_encodeAll, hfuel,
    readLoop_walk seg hwalk hlow, drop_encodeAll]
  exact hread

/-- The search for an offset ends where a walk over lower offsets arrives at it. -/
theorem Shape.positionOf {fs : Fs} {seg : Segment} {base k q c : ℕ} {chunk : List Record}
    {r : Record} (h : Shape crc config fs.dir seg base chunk) (hk : k < chunk.length)
    (hleads : LeadsTo crc config.maxRecordBytes (encodeAll crc chunk) (base + k)
      (seg.startPos (base + k)) q)
    (hdecode : Record.decode crc ((encodeAll crc chunk).drop q) config.maxRecordBytes = .record r c)
    (hoffset : r.offset = base + k) :
    (seg.positionOf crc config (base + k)).run fs = .ok q fs := by
  obtain ⟨rs, hwalk, hlow⟩ := hleads
  have hend := hwalk.end_eq
  have hskipped := length_le_totalLen rs
  obtain ⟨hlen, hle⟩ := decode_drop hdecode
  have hpos := r.encodedLen_pos
  rw [length_encodeAll] at hle
  obtain ⟨fuel, hfuel⟩ := Nat.exists_eq_add_of_le' (show rs.length + 1 ≤
    ((encodeAll crc chunk).drop (seg.startPos (base + k))).length + 1 by
      rw [List.length_drop, length_encodeAll]
      omega)
  rw [Segment.positionOf, if_neg (by rw [h.base_eq, h.next_eq]; omega),
    if_neg (by rw [h.next_eq]; omega), run_bind_ok (h.committedFrom (by omega)), hfuel,
    show fuel + (rs.length + 1) = fuel + 1 + rs.length by omega, positionLoop_walk hwalk hlow,
    Segment.positionLoop, hdecode]
  simp only [if_pos hoffset]
  rw [hend, Nat.zero_add]
  rfl

/-! ## What a loop says about the bytes -/

private theorem readLoop_within (seg : Segment) {o maxBytes start fuel pos used p : ℕ}
    {out res : List Record} {fs fs' : Fs} (hp : p ≤ bytes.length)
    (h : (seg.readLoop crc config o maxBytes start fuel (bytes.drop p) pos out used).run fs =
      .ok res fs') : ∃ more, res = out ++ more ∧ p + totalLen more ≤ bytes.length := by
  induction fuel generalizing p pos out used with
  | zero =>
    cases h
    exact ⟨[], (List.append_nil _).symm, hp⟩
  | succ fuel ih =>
    rw [Segment.readLoop] at h
    cases hdecode : Record.decode crc (bytes.drop p) config.maxRecordBytes with
    | record r c =>
      obtain ⟨hc, hle⟩ := decode_drop hdecode
      rw [hdecode] at h
      simp only [List.drop_drop] at h
      split_ifs at h
      · obtain ⟨more, hmore, hin⟩ := ih hle h
        exact ⟨more, hmore, by omega⟩
      · cases h
        exact ⟨[], (List.append_nil _).symm, hp⟩
      · cases h
        exact ⟨[r], rfl, by rw [totalLen_cons, totalLen_nil]; omega⟩
      · obtain ⟨more, rfl, hin⟩ := ih hle h
        exact ⟨r :: more, by rw [List.append_assoc]; rfl, by rw [totalLen_cons]; omega⟩
    | incomplete =>
      rw [hdecode] at h
      cases h
      exact ⟨[], (List.append_nil _).symm, hp⟩
    | corrupt reason =>
      rw [hdecode] at h
      cases h

/-- Where the first record of a read was found. -/
theorem readLoop_first (seg : Segment) {o maxBytes start fuel pos p : ℕ} {r : Record}
    {res : List Record} {fs fs' : Fs} (hp : p ≤ bytes.length)
    (h : (seg.readLoop crc config o maxBytes start fuel (bytes.drop p) pos [] 0).run fs =
      .ok (r :: res) fs') :
    ∃ q c, LeadsTo crc config.maxRecordBytes bytes o p q ∧
      Record.decode crc (bytes.drop q) config.maxRecordBytes = .record r c ∧
      q + totalLen (r :: res) ≤ bytes.length := by
  induction fuel generalizing p pos with
  | zero => cases h
  | succ fuel ih =>
    rw [Segment.readLoop] at h
    cases hdecode : Record.decode crc (bytes.drop p) config.maxRecordBytes with
    | record r' c =>
      obtain ⟨hc, hle⟩ := decode_drop hdecode
      rw [hdecode] at h
      simp only [List.drop_drop, ne_eq, not_true_eq_false, false_and, if_false, List.nil_append,
        Nat.zero_add] at h
      by_cases hlow : r'.offset < o
      · rw [if_pos hlow] at h
        obtain ⟨q, c', ⟨rs, hwalk, hrs⟩, hfound, hin⟩ := ih hle h
        exact ⟨q, c', ⟨r' :: rs, .cons hdecode hwalk, List.forall_mem_cons.mpr ⟨hlow, hrs⟩⟩, hfound,
          hin⟩
      · have htaken : ∃ more, r :: res = r' :: more ∧ p + c + totalLen more ≤ bytes.length := by
          rw [if_neg hlow] at h
          split_ifs at h
          · cases h
            exact ⟨[], rfl, hle⟩
          · exact readLoop_within seg hle h
        obtain ⟨more, hmore, hin⟩ := htaken
        cases hmore
        exact ⟨p, c, ⟨[], .nil p, fun _ h => absurd h List.not_mem_nil⟩, hdecode,
          by rw [totalLen_cons]; omega⟩
    | incomplete =>
      rw [hdecode] at h
      cases h
    | corrupt reason =>
      rw [hdecode] at h
      cases h

/-- A scan of a rolled segment that passes has walked to the end of the file. -/
theorem scan_walk {base fuel : ℕ} {st st' : Segment.Scan} {fs fs' : Fs}
    (hend : st.validEnd ≤ bytes.length) (hfuel : bytes.length - st.validEnd < fuel)
    (h : (Segment.scan crc config base false false fuel (bytes.drop st.validEnd) st).run fs =
      .ok st' fs') :
    ∃ rs, Walk crc config.maxRecordBytes bytes st.validEnd rs bytes.length ∧
      (∀ r, rs.head? = some r → r.offset = st.nextOffset) ∧
      st'.nextOffset = st.nextOffset + rs.length ∧ st'.validEnd = bytes.length ∧
      st'.index = st.index ∧ fs' = fs := by
  induction fuel generalizing st with
  | zero => omega
  | succ fuel ih =>
    rw [Segment.scan] at h
    cases hdecode : Record.decode crc (bytes.drop st.validEnd) config.maxRecordBytes with
    | record r c =>
      obtain ⟨hc, hle⟩ := decode_drop hdecode
      have hpos := r.encodedLen_pos
      rw [hdecode] at h
      simp only [Bool.false_eq_true, false_and, if_false, pure_bind, List.drop_drop] at h
      by_cases hoffset : r.offset = st.nextOffset
      · rw [if_neg (not_not.mpr hoffset)] at h
        obtain ⟨rs, hwalk, -, hnext, hend', hindex, hfs⟩ := @ih
          { st with
            bytesSinceIndex := st.bytesSinceIndex + c
            nextOffset := st.nextOffset + 1
            validEnd := st.validEnd + c } hle (by dsimp only; omega) h
        refine ⟨r :: rs, .cons hdecode hwalk, fun r' hr' => ?_, ?_, hend', hindex, hfs⟩
        · cases hr'
          exact hoffset
        · rw [hnext, List.length_cons]
          dsimp only
          omega
      · rw [if_pos hoffset] at h
        cases h
    | incomplete =>
      rw [hdecode] at h
      simp only [Bool.false_eq_true, or_false] at h
      split_ifs at h with hnil
      · cases h
        rw [List.drop_eq_nil_iff] at hnil
        have hstop : st'.validEnd = bytes.length := le_antisymm hend hnil
        refine ⟨[], ?_, nofun, rfl, hstop, rfl, rfl⟩
        rw [hstop]
        exact .nil _
      · cases h
    | corrupt reason =>
      rw [hdecode] at h
      cases h

end Replog.Storage
