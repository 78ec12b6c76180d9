import Enclave.Channel.Frame
import Enclave.Proofs.Sequencing
import Mathlib.Data.Nat.Digits.Defs

/-!
# Enclave.Proofs.Framing

Frames on a byte stream. A frame begins with four bytes that spell the length of its payload, and
`read_eq_ok_iff` says that reading takes off exactly one such frame. So both ends of a stream agree
on where each frame ends, whatever stands behind it.

* `frames_back_to_back`: what is written is read again, frame by frame, up to the bytes that follow;
  reading succeeds exactly on a length within the limit with enough bytes behind it; a payload
  beyond the limit leaves the stream as it was.
-/

namespace Enclave

namespace Frame

/-- Four bytes that spell a length, the least significant one first. -/
structure Spells (header : ByteArray) (n : Nat) : Prop where
  size : header.size = 4
  value : Nat.ofDigits 256 (header.data.toList.map (·.toNat)) = n

/-- What a stream holds after payloads have been written to it, and why writing stopped early. -/
def writeEach : List ByteArray → ByteArray → ByteArray × Option Error
  | [], stream => (stream, none)
  | payload :: payloads, stream =>
    match write payload with
    | .error e => (stream, some e)
    | .ok frame => writeEach payloads (stream ++ frame)

/-- So many payloads, read one after another, and the bytes that are left. -/
def readExactly : Nat → ByteArray → Except Error (List ByteArray × ByteArray)
  | 0, bytes => .ok ([], bytes)
  | count + 1, bytes => do
    let (payload, rest) ← read bytes
    let (payloads, rest) ← readExactly count rest
    return (payload :: payloads, rest)

variable {bytes header payload rest frame : ByteArray} {payloads : List ByteArray} {n : Nat}

theorem spells_lengthBytes (h : n < 2 ^ 32) : Spells (lengthBytes n) n := by
  refine ⟨rfl, ?_⟩
  simp only [lengthBytes, List.map_cons, List.map_nil, Nat.ofDigits_cons, Nat.ofDigits_nil,
    UInt8.toNat_ofNat']
  omega

theorem getElem?_append_left {i : Nat} (h : i < header.size) (tail : ByteArray) :
    (header ++ tail)[i]? = header[i]? := by
  have h' : i < (header ++ tail).size := by
    rw [ByteArray.size_append]
    omega
  rw [getElem?_pos (header ++ tail) i h', getElem?_pos header i h, ByteArray.getElem_append_left h]

theorem lengthOf?_append (h : Spells header n) (tail : ByteArray) :
    lengthOf? (header ++ tail) = some n := by
  obtain ⟨hsize, rfl⟩ := h
  have hbyte : ∀ i < 4, (header ++ tail)[i]? = header[i]? := fun i hi =>
    getElem?_append_left (by omega) tail
  simp only [lengthOf?]
  rw [hbyte 0 (by omega), hbyte 1 (by omega), hbyte 2 (by omega), hbyte 3 (by omega)]
  obtain ⟨⟨cs⟩⟩ := header
  match cs, hsize with
  | [a, b, c, d], _ =>
    show some (a.toNat + 256 * b.toNat + 65536 * c.toNat + 16777216 * d.toNat) = some _
    simp only [List.map_cons, List.map_nil, Nat.ofDigits_cons, Nat.ofDigits_nil, Option.some.injEq]
    omega

theorem extract_append_rest (h : n ≤ bytes.size) :
    bytes.extract 0 n ++ bytes.extract n bytes.size = bytes := by
  rw [ByteArray.extract_append_extract, Nat.zero_min, Nat.max_eq_right h,
    ByteArray.extract_zero_size]

theorem four_le_of_lengthOf? (h : lengthOf? bytes = some n) : 4 ≤ bytes.size := by
  simp only [lengthOf?, Option.bind_eq_bind, Option.bind_eq_some_iff] at h
  obtain ⟨-, -, -, -, -, -, d, hd, -⟩ := h
  by_contra hsize
  rw [getElem?_neg bytes 3 (by omega)] at hd
  cases hd

theorem spells_of_lengthOf? (h : lengthOf? bytes = some n) : Spells (bytes.extract 0 4) n := by
  have hfour := four_le_of_lengthOf? h
  have hsize : (bytes.extract 0 4).size = 4 := by
    rw [ByteArray.size_extract]
    omega
  have hspelt : Spells (bytes.extract 0 4) _ := ⟨hsize, rfl⟩
  have hlength := lengthOf?_append hspelt (bytes.extract 4 bytes.size)
  rw [extract_append_rest hfour, h] at hlength
  exact ⟨hsize, (Option.some.inj hlength).symm⟩

/-- Reading takes off one frame: the bytes of its length, its payload, and nothing of the rest. -/
theorem read_eq_ok_iff : read bytes = .ok (payload, rest) ↔
    ∃ header, Spells header payload.size ∧ payload.size ≤ maxPayload ∧
      bytes = header ++ payload ++ rest := by
  constructor
  · intro h
    rw [read] at h
    split at h
    · cases h
    · rename_i n hlength
      split at h
      · cases h
      · split at h
        · cases h
        · rename_i hmax hsize
          cases h
          have hpayload : (bytes.extract 4 (4 + n)).size = n := by
            rw [ByteArray.size_extract]
            omega
          refine ⟨bytes.extract 0 4, ?_, by omega, ?_⟩
          · rw [hpayload]
            exact spells_of_lengthOf? hlength
          · rw [ByteArray.extract_append_extract, Nat.zero_min, Nat.max_eq_right (by omega),
              extract_append_rest (by omega)]
  · rintro ⟨header, hspells, hmax, rfl⟩
    have hsize : (header ++ payload ++ rest).size = 4 + payload.size + rest.size := by
      rw [ByteArray.size_append, ByteArray.size_append, hspells.size]
    have hfront : (header ++ payload).size = 4 + payload.size := by
      rw [ByteArray.size_append, hspells.size]
    have hpayload : (header ++ payload ++ rest).extract 4 (4 + payload.size) = payload := by
      rw [← hfront, ByteArray.extract_append_size_left]
      exact ByteArray.extract_append_eq_right hspells.size.symm (ByteArray.size_append)
    have hrest : (header ++ payload ++ rest).extract (4 + payload.size)
        (header ++ payload ++ rest).size = rest :=
      ByteArray.extract_append_eq_right hfront.symm (ByteArray.size_append)
    have hlength : lengthOf? (header ++ payload ++ rest) = some payload.size := by
      rw [ByteArray.append_assoc]
      exact lengthOf?_append hspells _
    rw [read, hlength]
    simp only
    rw [if_neg (by omega), if_neg (by omega), hpayload, hrest]

theorem read_isOk_iff : (∃ payload rest, read bytes = .ok (payload, rest)) ↔
    ∃ header tail n, bytes = header ++ tail ∧ Spells header n ∧ n ≤ maxPayload ∧ n ≤ tail.size := by
  constructor
  · rintro ⟨payload, rest, h⟩
    obtain ⟨header, hspells, hmax, rfl⟩ := read_eq_ok_iff.1 h
    refine ⟨header, payload ++ rest, _, ByteArray.append_assoc, hspells, hmax, ?_⟩
    rw [ByteArray.size_append]
    exact Nat.le_add_right _ _
  · rintro ⟨header, tail, n, rfl, hspells, hmax, hsize⟩
    have hpayload : (tail.extract 0 n).size = n := by
      rw [ByteArray.size_extract]
      omega
    refine ⟨tail.extract 0 n, tail.extract n tail.size, read_eq_ok_iff.2 ⟨header, ?_, ?_, ?_⟩⟩
    · rwa [hpayload]
    · rwa [hpayload]
    · rw [ByteArray.append_assoc, extract_append_rest hsize]

theorem write_of_le (h : payload.size ≤ maxPayload) :
    write payload = .ok (lengthBytes payload.size ++ payload) := by
  rw [write, if_neg (by omega)]

theorem write_of_lt (h : maxPayload < payload.size) :
    write payload = .error (.payloadTooLong payload.size) := by
  rw [write, if_pos h]

theorem read_append_of_write (h : write payload = .ok frame) (tail : ByteArray) :
    read (frame ++ tail) = .ok (payload, tail) := by
  have hmax : payload.size ≤ maxPayload := by
    by_contra hlong
    rw [write_of_lt (by omega)] at h
    cases h
  rw [write_of_le hmax] at h
  cases h
  have hword : payload.size < 2 ^ 32 := by
    rw [maxPayload] at hmax
    omega
  exact read_eq_ok_iff.2 ⟨_, spells_lengthBytes hword, hmax, rfl⟩

/-- Payloads within the limit are all written, and reading as many frames gives them back. -/
theorem readExactly_of_writeEach (h : ∀ payload ∈ payloads, payload.size ≤ maxPayload)
    (stream : ByteArray) : ∃ frames, writeEach payloads stream = (stream ++ frames, none) ∧
      ∀ tail, readExactly payloads.length (frames ++ tail) = .ok (payloads, tail) := by
  induction payloads generalizing stream with
  | nil =>
    refine ⟨.empty, ?_, fun tail => ?_⟩
    · rw [ByteArray.append_empty]
      rfl
    · rw [ByteArray.empty_append]
      rfl
  | cons payload payloads ih =>
    have hwrite := write_of_le (h payload List.mem_cons_self)
    obtain ⟨frames, hwritten, hread⟩ :=
      ih (fun p hp => h p (List.mem_cons_of_mem payload hp))
        (stream ++ (lengthBytes payload.size ++ payload))
    refine ⟨lengthBytes payload.size ++ payload ++ frames, ?_, fun tail => ?_⟩
    · rw [writeEach, hwrite, ← ByteArray.append_assoc]
      exact hwritten
    · rw [List.length_cons, readExactly, ByteArray.append_assoc, read_append_of_write hwrite,
        ok_bind]
      simp only
      rw [hread, ok_bind]
      rfl

theorem writeEach_append_of_lt (h : ∀ payload ∈ payloads, payload.size ≤ maxPayload)
    (hlong : maxPayload < payload.size) (others : List ByteArray) (stream : ByteArray) :
    writeEach (payloads ++ payload :: others) stream =
      ((writeEach payloads stream).1, some (.payloadTooLong payload.size)) := by
  induction payloads generalizing stream with
  | nil =>
    rw [List.nil_append, writeEach.eq_2, write_of_lt hlong]
    rfl
  | cons p payloads ih =>
    rw [List.cons_append, writeEach, writeEach, write_of_le (h p List.mem_cons_self)]
    exact ih (fun q hq => h q (List.mem_cons_of_mem p hq)) _

theorem readUpTo_of_readExactly {count : Nat} (h : readExactly count bytes = .ok (payloads, rest))
    (more : Nat) : readUpTo (more + count) bytes =
      (payloads ++ (readUpTo more rest).1, (readUpTo more rest).2) := by
  induction count generalizing bytes payloads with
  | zero =>
    cases h
    rfl
  | succ count ih =>
    rw [readExactly] at h
    obtain ⟨⟨payload, rest₁⟩, hread, h⟩ := bind_eq_ok.1 h
    obtain ⟨⟨payloads₁, rest₂⟩, hmore, h⟩ := bind_eq_ok.1 h
    cases h
    rw [← Nat.add_assoc, readUpTo, hread]
    simp only
    rw [ih hmore]
    rfl

/--
Two ends of a stream stay together. Payloads within the limit are written one after another, and
reading as many frames gives them back in order and leaves what follows, so that reading on finds
what it would find there alone. There is a frame to read exactly if the bytes begin with four that
spell a length within the limit and at least as many follow; it is taken off whole, and nothing
more. A payload beyond the limit is refused before any byte of it is written.
-/
theorem frames_back_to_back :
    (∀ (payloads : List ByteArray) (stream tail : ByteArray),
      (∀ payload ∈ payloads, payload.size ≤ maxPayload) →
      ∃ frames, writeEach payloads stream = (stream ++ frames, none) ∧
        readExactly payloads.length (frames ++ tail) = .ok (payloads, tail) ∧
        ∀ more, readUpTo (more + payloads.length) (frames ++ tail) =
          (payloads ++ (readUpTo more tail).1, (readUpTo more tail).2)) ∧
    (∀ bytes, (∃ payload rest, read bytes = .ok (payload, rest)) ↔
      ∃ header tail n, bytes = header ++ tail ∧ Spells header n ∧ n ≤ maxPayload ∧
        n ≤ tail.size) ∧
    (∀ bytes payload rest, read bytes = .ok (payload, rest) ↔
      ∃ header, Spells header payload.size ∧ payload.size ≤ maxPayload ∧
        bytes = header ++ payload ++ rest) ∧
    ∀ (payloads : List ByteArray) (long : ByteArray) (others : List ByteArray) (stream : ByteArray),
      (∀ payload ∈ payloads, payload.size ≤ maxPayload) → maxPayload < long.size →
      writeEach (payloads ++ long :: others) stream =
        ((writeEach payloads stream).1, some (.payloadTooLong long.size)) := by
  refine ⟨fun payloads stream tail h => ?_, fun _ => read_isOk_iff, fun _ _ _ => read_eq_ok_iff,
    fun _ _ others stream h hlong => writeEach_append_of_lt h hlong others stream⟩
  obtain ⟨frames, hwritten, hread⟩ := readExactly_of_writeEach h stream
  exact ⟨frames, hwritten, hread tail, readUpTo_of_readExactly (hread tail)⟩

/-- A text, an empty payload and a cut frame behind them; a length alone; one byte too many. -/
theorem frames_back_to_back_cut : (∃ frames,
      writeEach [⟨#[123, 125]⟩, .empty] .empty = (.empty ++ frames, none) ∧
      readExactly 2 (frames ++ ⟨#[3, 0, 0, 0, 1]⟩) =
        .ok ([⟨#[123, 125]⟩, .empty], ⟨#[3, 0, 0, 0, 1]⟩) ∧
      readUpTo 16 (frames ++ ⟨#[3, 0, 0, 0, 1]⟩) = ([⟨#[123, 125]⟩, .empty], some .cutShort)) ∧
    (∃ payload rest, read ⟨#[0, 0, 0, 0]⟩ = .ok (payload, rest)) ∧
    writeEach [⟨Array.replicate (maxPayload + 1) 0⟩] .empty =
      (.empty, some (.payloadTooLong (maxPayload + 1))) := by
  obtain ⟨hwritten, hisOk, -, hlong⟩ := frames_back_to_back
  have hsize : (ByteArray.mk (Array.replicate (maxPayload + 1) 0)).size = maxPayload + 1 :=
    Array.size_replicate
  refine ⟨?_, (hisOk _).2 ⟨⟨#[0, 0, 0, 0]⟩, .empty, 0, rfl, ⟨rfl, rfl⟩, by decide, le_refl 0⟩, ?_⟩
  · obtain ⟨frames, hwrite, hread, hmore⟩ :=
      hwritten [⟨#[123, 125]⟩, .empty] .empty ⟨#[3, 0, 0, 0, 1]⟩ (by decide)
    refine ⟨frames, hwrite, hread, (hmore 14).trans ?_⟩
    decide +kernel
  · have h := hlong [] ⟨Array.replicate (maxPayload + 1) 0⟩ [] .empty (by simp) (by omega)
    rwa [hsize] at h

end Frame

end Enclave
