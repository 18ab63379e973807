import Ufora.Lib.Records

/-!
# Checksummed files

`distributed/SharedState/Storage/ChecksummedFile.cpp`: a file of strings, each written as its checksum,
its size and its bytes. `readAllToVector` reads the strings of a whole file, and reports a failure if
the last one is torn.
-/

open Records List

namespace SharedState.ChecksummedFile

/-- One byte of a `boost::crc_32_type`. -/
def crcByte (crc : BitVec 32) (b : UInt8) : BitVec 32 := (List.range 8).foldl
    (fun crc _ => if crc &&& 1#32 = 1#32 then (crc >>> 1) ^^^ 0xEDB88320#32 else crc >>> 1)
    (crc ^^^ b.toBitVec.setWidth 32)

/-- `crc.process_bytes(..)` and `crc.checksum()`. -/
def checksum (data : List UInt8) : ℕ := (data.foldl crcByte 0xFFFFFFFF#32 ^^^ 0xFFFFFFFF#32).toNat

/-- What `writeString(str)` appends: checksum / size / string. -/
def record (str : List UInt8) : List UInt8 := littleEndian 4 (checksum str) ++ (littleEndian 8 str.length ++ str)

/-- `readString(inFile, outString, remainingBytes)`: the string, what is left of the file, and
`remainingBytes`. -/
def readString (inFile : List UInt8) (remainingBytes : ℤ) : Option (List UInt8 × List UInt8 × ℤ) :=
  if inFile.length < 4 then none
  else
    let crc := ofLittleEndian (inFile.take 4)
    let inFile := inFile.drop 4
    let remainingBytes := remainingBytes - 4
    if inFile.length < 8 then none
    else
      let size := ofLittleEndian (inFile.take 8)
      let inFile := inFile.drop 8
      let remainingBytes := remainingBytes - 8
      if (size : ℤ) > remainingBytes then none
      else if inFile.length < size then none
      else
        let buff := inFile.take size
        if checksum buff ≠ crc then none
        else some (buff, inFile.drop size, remainingBytes - size)

/-- The loop of `readAllToVector`, which reads `limit` strings at most. -/
def readStrings : ℕ → List UInt8 → ℤ → List (List UInt8) → Bool × List (List UInt8)
  | 0, _, _, outVector => (false, outVector)
  | limit + 1, file, remaining, outVector =>
    match readString file remaining with
    | none => (false, outVector)
    | some (result, file, remaining) =>
      if remaining > 0 then readStrings limit file remaining (outVector ++ [result])
      else (true, outVector ++ [result])

/-- `readAllToVector(path, outVector)`, for the content of the file: whether it succeeds, and the
strings. There are not more strings in a file than bytes. -/
def readAllToVector (content : List UInt8) : Bool × List (List UInt8) :=
  readStrings (content.length + 1) content content.length []

/-! ## Reading back -/

variable {str : List UInt8} {rest torn : List UInt8}

theorem length_record (str : List UInt8) : (record str).length = 12 + str.length := by
  rw [record, length_append, length_append, length_littleEndian, length_littleEndian]
  omega

theorem record_ne_nil (str : List UInt8) : record str ≠ [] := by
  refine ne_nil_of_length_pos ?_
  rw [length_record]
  omega

theorem checksum_lt (str : List UInt8) : checksum str < 256 ^ 4 := BitVec.isLt _

/-- `readString` reads what `writeString` wrote. -/
theorem readString_record (h : str.length < 2 ^ 64) (rest : List UInt8) :
    readString (record str ++ rest) (record str ++ rest).length = some (str, rest, (rest.length : ℤ)) := by
  have hsize : str.length < 256 ^ 8 := h
  have hlen : (record str ++ rest).length = 12 + str.length + rest.length := by
    rw [length_append, length_record]
  have hfile : record str ++ rest = littleEndian 4 (checksum str) ++ (littleEndian 8 str.length ++ (str ++ rest)) := by
    rw [record, append_assoc, append_assoc]
  unfold readString
  rw [hlen, hfile, if_neg (by omega), take_left' (length_littleEndian 4 _), drop_left' (length_littleEndian 4 _),
    ofLittleEndian_littleEndian (checksum_lt str)]
  rw [if_neg (by simp), take_left' (length_littleEndian 8 _),
    drop_left' (length_littleEndian 8 _), ofLittleEndian_littleEndian hsize,
    if_neg (by omega), if_neg (by simp), take_left' rfl, drop_left' rfl,
    if_neg (not_not.2 rfl)]
  congr 3
  omega

/-- `readString` does not take a torn string for a whole one: its size is larger than what is left of
the file. -/
theorem readString_torn (h : str.length < 2 ^ 64) (hpre : torn <+: record str)
    (hlt : torn.length < (record str).length) : readString torn torn.length = none := by
  have hsize : str.length < 256 ^ 8 := h
  rw [length_record] at hlt
  obtain ⟨rest, hrest⟩ := hpre
  unfold readString
  split
  · rfl
  · next h4 =>
    simp only
    split
    · rfl
    · next h8 =>
      rw [length_drop] at h8
      have hread : ofLittleEndian ((torn.drop 4).take 8) = str.length := by
        have htake : (torn.drop 4).take 8 = ((record str).drop 4).take 8 := by
          rw [← hrest, drop_append_of_le_length (by omega), take_append_of_le_length (by rw [length_drop]; omega)]
        rw [htake, record, drop_left' (length_littleEndian 4 _),
          take_left' (length_littleEndian 8 _), ofLittleEndian_littleEndian hsize]
      rw [hread, if_pos (by omega)]

section
variable {strs : List (List UInt8)} (h : ∀ str ∈ strs, str.length < 2 ^ 64)
include h

/-- The loop over the strings of a file that is not torn. -/
theorem readStrings_records (hne : strs ≠ []) {limit : ℕ} (hlimit : strs.length ≤ limit)
    (outVector : List (List UInt8)) :
    readStrings limit (strs.flatMap record) (strs.flatMap record).length outVector = (true, outVector ++ strs) := by
  induction strs generalizing limit outVector with
  | nil => exact absurd rfl hne
  | cons str strs ih =>
    obtain ⟨limit, rfl⟩ : ∃ n, limit = n + 1 := ⟨limit - 1, by simp at hlimit; omega⟩
    rw [forall_mem_cons] at h
    unfold readStrings
    rw [flatMap_cons, readString_record h.1]
    simp only
    cases strs with
    | nil => rfl
    | cons str' strs =>
      have hpos : (((str' :: strs).flatMap record).length : ℤ) > 0 := by
        rw [flatMap_cons, length_append, length_record]
        omega
      rw [if_pos hpos, ih h.2 (cons_ne_nil _ _) (Nat.le_of_succ_le_succ hlimit), append_assoc]
      rfl

/-- The loop over the strings of a file that is torn. -/
theorem readStrings_torn {l : List (List UInt8)} (hl : ∀ str ∈ l, str.length < 2 ^ 64)
    (ht : Torn record l torn) (n : ℕ) (outVector : List (List UInt8)) :
    (readStrings n (strs.flatMap record ++ torn) (strs.flatMap record ++ torn).length outVector).1 = false := by
  obtain ⟨hpos, str, hstr, hpre, hlt⟩ := ht.length_lt
  induction n generalizing strs outVector with
  | zero => rfl
  | succ n ih =>
    unfold readStrings
    cases strs with
    | nil =>
      rw [flatMap_nil, nil_append, readString_torn (hl str hstr) hpre hlt]
    | cons str strs =>
      rw [forall_mem_cons] at h
      rw [flatMap_cons, append_assoc, readString_record h.1]
      simp only
      rw [if_pos (by rw [length_append]; omega), ih h.2]

/-- A file of at least one string, which is not torn, is read whole. -/
theorem readAllToVector_records (hne : strs ≠ []) : readAllToVector (strs.flatMap record) = (true, strs) := by
  refine readStrings_records h hne ?_ []
  have hle : ∀ strs : List (List UInt8), strs.length ≤ (strs.flatMap record).length := by
    intro strs
    induction strs with
    | nil => exact Nat.zero_le _
    | cons str strs ih =>
      rw [flatMap_cons, length_append, length_record, length_cons]
      omega
  exact (hle strs).trans (Nat.le_succ _)

/-- Reading a file that is torn fails. -/
theorem readAllToVector_torn {l : List (List UInt8)} (hl : ∀ str ∈ l, str.length < 2 ^ 64)
    (ht : Torn record l torn) : (readAllToVector (strs.flatMap record ++ torn)).1 = false :=
  readStrings_torn h hl ht _ []

end

end SharedState.ChecksummedFile
