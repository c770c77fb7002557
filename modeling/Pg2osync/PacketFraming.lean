import Pg2osync.ByteOrder

/-!
# Messages in packets

A message to the server or from it goes in packets, each with its length and a number ahead of it.
A packet of the greatest length says that the message goes on in the next one, so a message that
ends with such a packet is followed by an empty one.

The writer cuts a message up, and the reader, who does not know how long it is, puts it together.
-/

namespace Pg2osync

namespace MySql

/-! ## Writing -/

/-- `MAX_PAYLOAD` -/
def maxPayload : ℕ := 0x00FFFFFF

/-- `frame`: a packet. -/
def frame (seq : UInt8) (payload : List UInt8) : List UInt8 :=
  Encoding.toLittleEndian 3 payload.length ++ seq :: payload

/-- `chunks`: pieces of one length, of which the last may be shorter. -/
def chunks {α : Type} (n : ℕ) (xs : List α) : List (List α) :=
  if n = 0 ∨ xs = [] then [] else xs.take n :: chunks n (xs.drop n)
termination_by xs.length
decreasing_by
  next h =>
    obtain ⟨hn, hxs⟩ := not_or.mp h
    have := List.length_pos_iff.mpr hxs
    simp only [List.length_drop]
    omega

/-- Packets with one number after the other, which wraps around. -/
def frames : UInt8 → List (List UInt8) → List (List UInt8)
  | _, [] => []
  | seq, chunk :: rest => frame seq chunk :: frames (seq + 1) rest

/-- What the packets of a message hold. -/
def pieces (payload : List UInt8) : List (List UInt8) :=
  chunks maxPayload payload ++
    -- one that fills its last packet is not over yet
    if payload = [] ∨ payload.length % maxPayload = 0 then [[]] else []

/-- `frame_all` -/
def frameAll (startSeq : UInt8) (payload : List UInt8) : List (List UInt8) :=
  frames startSeq (pieces payload)

/-- `write_framed_at`: what goes out. -/
def written (startSeq : UInt8) (payload : List UInt8) : List UInt8 :=
  (frameAll startSeq payload).flatten

/-! ## Reading -/

/-- A message, with the number of its last packet. -/
structure SeqPacket : Type where
  /-- the number -/
  seq : UInt8
  /-- the message -/
  payload : List UInt8
  deriving DecidableEq

/-- Why a message is not read. -/
inductive ReadError : Type where
  /-- the connection has gone -/
  | connect (context : String) : ReadError
  /-- what comes is no message -/
  | protocol (context : String) : ReadError
  deriving DecidableEq

/-- The number of a packet that goes on with a message is known. -/
def checkSeq (expected : Option UInt8) (seq : UInt8) : Except ReadError Unit :=
  match expected with
  | none => .ok ()
  | some expected =>
    if seq ≠ expected then
      .error (.protocol ("packet sequence " ++ toString seq ++ " arrived where " ++
        toString expected ++ " was expected"))
    else .ok ()

/-- The loop of `read_one_with_seq`, with what it has read and what is still to come. -/
def readPackets (expected : Option UInt8) (payload stream : List UInt8) :
    Except ReadError (SeqPacket × List UInt8) :=
  match stream with
  | b₀ :: b₁ :: b₂ :: seq :: rest =>
    let len := Encoding.littleEndian [b₀, b₁, b₂]
    match checkSeq expected seq with
    | .error e => .error e
    | .ok () =>
      if rest.length < len then .error (.connect "connection closed mid-payload")
      else if len < maxPayload then .ok (⟨seq, payload ++ rest.take len⟩, rest.drop len)
      else readPackets (some (seq + 1)) (payload ++ rest.take len) (rest.drop len)
  | _ => .error (.connect "connection closed mid-packet")
termination_by stream.length
decreasing_by
  simp only [List.length_drop, List.length_cons]
  omega

/-- `read_one_with_seq` -/
def readOneWithSeq (stream : List UInt8) : Except ReadError (SeqPacket × List UInt8) :=
  readPackets none [] stream

/-- So many messages, one after the other. -/
def readMessages : ℕ → List UInt8 → Except ReadError (List SeqPacket × List UInt8)
  | 0, stream => .ok ([], stream)
  | n + 1, stream => do
    let (message, rest) ← readOneWithSeq stream
    let (messages, rest) ← readMessages n rest
    return (message :: messages, rest)

/-! ## How a message is cut -/

theorem chunks_nil {α : Type} (n : ℕ) : chunks n ([] : List α) = [] := by
  rw [chunks, if_pos (.inr rfl)]

theorem chunks_cons {α : Type} {n : ℕ} {xs : List α} (hn : n ≠ 0) (hxs : xs ≠ []) :
    chunks n xs = xs.take n :: chunks n (xs.drop n) := by
  rw [chunks, if_neg (not_or.mpr ⟨hn, hxs⟩)]

/-- A message is cut into full pieces and one that is not full. -/
theorem pieces_eq (payload : List UInt8) : ∃ full last, pieces payload = full ++ [last] ∧
    (∀ chunk ∈ full, chunk.length = maxPayload) ∧ last.length < maxPayload ∧
    full.flatten ++ last = payload := by
  have hpos : 0 < maxPayload := by decide
  induction hlength : payload.length using Nat.strong_induction_on generalizing payload with
  | _ length ih =>
    by_cases hnil : payload = []
    · refine ⟨[], [], ?_, ?_, hpos, by rw [hnil]; rfl⟩
      · rw [pieces, hnil, chunks_nil, if_pos (.inl rfl)]
      · rintro chunk ⟨⟩
    have hchunks := chunks_cons hpos.ne' hnil
    by_cases hshort : payload.length < maxPayload
    · have hdrop : payload.drop maxPayload = [] := List.drop_eq_nil_of_le hshort.le
      have hmod : payload.length % maxPayload ≠ 0 := by
        rw [Nat.mod_eq_of_lt hshort]
        exact (List.length_pos_iff.mpr hnil).ne'
      refine ⟨[], payload, ?_, ?_, hshort, rfl⟩
      · rw [pieces, hchunks, hdrop, chunks_nil, if_neg (not_or.mpr ⟨hnil, hmod⟩),
          List.take_of_length_le hshort.le]
        rfl
      · rintro chunk ⟨⟩
    · -- the first piece is full, and the rest is a message
      have hlong := Nat.not_lt.mp hshort
      have hdrop : (payload.drop maxPayload).length = payload.length - maxPayload :=
        List.length_drop
      obtain ⟨full, last, hpieces, hfull, hlast, hflatten⟩ := ih _ (by omega) _ hdrop
      refine ⟨payload.take maxPayload :: full, last, ?_, ?_, hlast, ?_⟩
      · have hends : (payload = [] ∨ payload.length % maxPayload = 0) ↔
            (payload.drop maxPayload = [] ∨ (payload.drop maxPayload).length % maxPayload = 0) := by
          rw [or_iff_right hnil, hdrop, ← Nat.mod_eq_sub_mod hlong, iff_or_self]
          intro h
          rw [List.drop_eq_nil_iff] at h
          rw [le_antisymm h hlong, Nat.mod_self]
        rw [pieces, hchunks, List.cons_append, List.cons_append, ← hpieces, pieces]
        simp only [hends]
      · rintro chunk (⟨⟩ | ⟨_, hchunk⟩)
        · rw [List.length_take, Nat.min_eq_left hlong]
        · exact hfull chunk hchunk
      · rw [List.flatten_cons, List.append_assoc, hflatten, List.take_append_drop]

/-! ## What is read of it -/

variable {expected : Option UInt8} {seq : UInt8}

theorem checkSeq_of_all (h : ∀ n ∈ expected, n = seq) : checkSeq expected seq = .ok () := by
  cases expected with
  | none => rfl
  | some n => exact if_neg (not_not.mpr (h n rfl).symm)

/-- A packet is read as it was written. -/
theorem readPackets_frame {chunk : List UInt8} (hseq : ∀ n ∈ expected, n = seq)
    (hlength : chunk.length ≤ maxPayload) (payload rest : List UInt8) :
    readPackets expected payload (frame seq chunk ++ rest) =
      if chunk.length < maxPayload then .ok (⟨seq, payload ++ chunk⟩, rest)
      else readPackets (some (seq + 1)) (payload ++ chunk) rest := by
  obtain ⟨b₀, b₁, b₂, hbytes⟩ := List.length_eq_three.mp
    (Encoding.length_toLittleEndian 3 chunk.length)
  have hlen : Encoding.littleEndian [b₀, b₁, b₂] = chunk.length := by
    rw [← hbytes, Encoding.littleEndian_toLittleEndian]
    exact Nat.mod_eq_of_lt (Nat.lt_of_le_of_lt hlength (by decide))
  have hframe : frame seq chunk ++ rest = b₀ :: b₁ :: b₂ :: seq :: (chunk ++ rest) := by
    rw [frame, hbytes]
    rfl
  have hnot : ¬(chunk ++ rest).length < chunk.length := by
    rw [List.length_append]
    omega
  rw [hframe, readPackets, checkSeq_of_all hseq]
  simp only [hlen, if_neg hnot, List.take_left, List.drop_left]

/-- Full pieces and one that is not are read together. -/
theorem readPackets_frames {full : List (List UInt8)} {last : List UInt8}
    (hfull : ∀ chunk ∈ full, chunk.length = maxPayload) (hlast : last.length < maxPayload)
    (hseq : ∀ n ∈ expected, n = seq) (payload rest : List UInt8) :
    readPackets expected payload ((frames seq (full ++ [last])).flatten ++ rest) =
      .ok (⟨seq + UInt8.ofNat full.length, payload ++ (full.flatten ++ last)⟩, rest) := by
  induction full generalizing expected seq payload with
  | nil =>
    rw [List.nil_append, frames, frames, List.flatten_cons, List.flatten_nil, List.append_nil,
      readPackets_frame hseq hlast.le, if_pos hlast]
    simp
  | cons chunk full ih =>
    have hchunk := hfull chunk List.mem_cons_self
    have hnext : ∀ n ∈ some (seq + 1), n = seq + 1 := by
      rintro n ⟨⟩
      rfl
    rw [List.cons_append, frames, List.flatten_cons, List.append_assoc,
      readPackets_frame hseq hchunk.le, if_neg (by omega),
      ih (fun c hc => hfull c (List.mem_cons_of_mem _ hc)) hnext]
    simp only [List.length_cons, List.flatten_cons, List.append_assoc, UInt8.ofNat_add]
    rw [UInt8.add_assoc, UInt8.add_comm 1]
    rfl

theorem length_frames (seq : UInt8) (list : List (List UInt8)) :
    (frames seq list).length = list.length := by
  induction list generalizing seq with
  | nil => rfl
  | cons chunk rest ih => exact congrArg (· + 1) (ih _)

/-- The number of the last packet of a message: they are numbered one after the other. -/
def lastSeq (startSeq : UInt8) (payload : List UInt8) : UInt8 :=
  startSeq + UInt8.ofNat ((frameAll startSeq payload).length - 1)

/-- **A message is read back**, and no more than it is read. -/
theorem readOneWithSeq_written (startSeq : UInt8) (payload rest : List UInt8) :
    readOneWithSeq (written startSeq payload ++ rest) =
      .ok (⟨lastSeq startSeq payload, payload⟩, rest) := by
  obtain ⟨full, last, hpieces, hfull, hlast, hflatten⟩ := pieces_eq payload
  have hnone : ∀ n ∈ (none : Option UInt8), n = startSeq := by
    rintro n ⟨⟩
  rw [readOneWithSeq, written, lastSeq, frameAll, length_frames, hpieces,
    readPackets_frames hfull hlast hnone, hflatten, List.nil_append, List.length_append,
    List.length_singleton, Nat.add_sub_cancel]

/-- **Messages are read back one by one**, each with the number of its last packet, however long
they are and whatever follows them. -/
theorem messages_read_back (messages : List (UInt8 × List UInt8)) (rest : List UInt8) :
    readMessages messages.length ((messages.flatMap fun m => written m.1 m.2) ++ rest) =
      .ok (messages.map fun m => ⟨lastSeq m.1 m.2, m.2⟩, rest) := by
  induction messages with
  | nil => rfl
  | cons m messages ih =>
    rw [List.flatMap_cons, List.append_assoc, List.length_cons, readMessages,
      readOneWithSeq_written]
    change (readMessages _ _ >>= _) = _
    rw [ih]
    rfl

end MySql

end Pg2osync
