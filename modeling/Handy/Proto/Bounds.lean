import Handy.Proto

/-!
# What `ProtoMsgCodec::decode` reads

`decodeReading` is `decode` with a record of the two places where memory of the buffer is
handed on: the type name is built from it, and `ParseFromArray` reads it. Its answer is the
one of `decode` (`decodeReading_snd`).

A message consumes exactly its frame, and without a message the buffer stays as it is. But
the name length is compared with the size of the buffer, in 32 bits and without the length of
the message, so `decode` stays within the frame exactly if the lengths it lets through agree
(`decode_within_frame_iff`).
-/

set_option autoImplicit false

namespace Handy

namespace Buffer

/-- `msglen` in `ProtoMsgCodec::decode`. -/
def msglen (s : Buffer) : ℕ := loadU32 s.memory

/-- `namelen` in `ProtoMsgCodec::decode`. -/
def namelen (s : Buffer) : ℕ := loadU32 (s.memory.drop 4)

end Buffer

namespace ProtoMsgCodec

variable {Message : Type} (pb : Protobuf Message)

/-- A use that `decode` makes of memory behind the two lengths. -/
inductive Reading where
  /-- `string typeName(p + 8, namelen)`. -/
  | typeName (length : ℕ)
  /-- `ParseFromArray(p + 8 + namelen, msglen - 8 - namelen)`. -/
  | parseFromArray (start : ℕ) (size : ℤ)
  deriving DecidableEq, Repr

/-- `ProtoMsgCodec::decode` with what it reads on the way. -/
def decodeReading (s : Buffer) : List Reading × Option Message × Buffer :=
  if s.size < 8 then ([], none, s)
  else
    let p := s.memory
    let msglen := loadU32 p
    let namelen := loadU32 (p.drop 4)
    if s.size < msglen ∨ s.size < (4 + namelen) % 2 ^ 32 then ([], none, s)
    else
      let typeName := (p.drop 8).take namelen
      if pb.found typeName = false then ([.typeName namelen], none, s)
      else
        let size := toInt32 (msglen - 8 - namelen)
        let readings := [.typeName namelen, .parseFromArray (8 + namelen) size]
        match pb.parse typeName (p.drop (8 + namelen)) size with
        | none => (readings, none, s)
        | some msg =>
            match s.consume msglen with
            | none => (readings, none, s)
            | some rest => (readings, some msg, rest)

/-- The record does not change the answer. -/
theorem decodeReading_snd (s : Buffer) : (decodeReading pb s).2 = decode pb s := by
  unfold decodeReading decode
  by_cases short : s.size < 8
  · rw [if_pos short, if_pos short]
  rw [if_neg short, if_neg short]
  by_cases bad : s.size < loadU32 s.memory ∨ s.size < (4 + loadU32 (s.memory.drop 4)) % 2 ^ 32
  · simp only [if_pos bad]
  simp only [if_neg bad]
  cases pb.found ((s.memory.drop 8).take (loadU32 (s.memory.drop 4)))
  · rfl
  · simp only [Bool.true_eq_false, if_false]
    cases pb.parse ((s.memory.drop 8).take (loadU32 (s.memory.drop 4)))
        (s.memory.drop (8 + loadU32 (s.memory.drop 4)))
        (toInt32 (loadU32 s.memory - 8 - loadU32 (s.memory.drop 4))) with
    | none => rfl
    | some msg => cases s.consume (loadU32 s.memory) <;> rfl

/-- The checks of `decode` let the lengths of a buffer through. -/
def Admitted (s : Buffer) : Prop :=
  8 ≤ s.size ∧ s.msglen ≤ s.size ∧ (4 + s.namelen) % 2 ^ 32 ≤ s.size

/-- Nothing is read from a buffer that is not admitted, and the name from any other. -/
theorem readings_eq_nil_iff (s : Buffer) : (decodeReading pb s).1 = [] ↔ ¬ Admitted s := by
  unfold decodeReading Admitted Buffer.msglen Buffer.namelen
  by_cases short : s.size < 8
  · rw [if_pos short]
    simp only [true_iff]
    omega
  rw [if_neg short]
  by_cases bad : s.size < loadU32 s.memory ∨ s.size < (4 + loadU32 (s.memory.drop 4)) % 2 ^ 32
  · simp only [if_pos bad, true_iff]
    omega
  · simp only [if_neg bad]
    have passed : 8 ≤ s.size ∧ loadU32 s.memory ≤ s.size ∧
        (4 + loadU32 (s.memory.drop 4)) % 2 ^ 32 ≤ s.size := by omega
    refine iff_of_false ?_ (not_not_intro passed)
    split
    · exact List.cons_ne_nil _ _
    · split
      · exact List.cons_ne_nil _ _
      · split <;> exact List.cons_ne_nil _ _

/-- What is read are the name and the data behind it. -/
theorem reading_eq {s : Buffer} {reading : Reading} (member : reading ∈ (decodeReading pb s).1) :
    reading = .typeName s.namelen ∨
      reading = .parseFromArray (8 + s.namelen) (toInt32 (s.msglen - 8 - s.namelen)) := by
  suffices listed : reading ∈ [Reading.typeName s.namelen,
      .parseFromArray (8 + s.namelen) (toInt32 (s.msglen - 8 - s.namelen))] by simpa using listed
  unfold decodeReading at member
  unfold Buffer.msglen Buffer.namelen
  split_ifs at member
  · cases member
  · simp only at member
    split_ifs at member
    · cases member
    · exact List.mem_cons.mpr (.inl (List.mem_singleton.mp member))
    · split at member
      · exact member
      · split at member <;> exact member

/-- Without a message the buffer is as before. -/
theorem decode_none {s after : Buffer} (refused : decode pb s = (none, after)) : after = s := by
  unfold decode at refused
  by_cases short : s.size < 8
  · rw [if_pos short] at refused
    exact (Prod.mk.inj refused).2.symm
  rw [if_neg short] at refused
  simp only at refused
  split_ifs at refused with bad unknown
  · exact (Prod.mk.inj refused).2.symm
  · exact (Prod.mk.inj refused).2.symm
  · split at refused
    · exact (Prod.mk.inj refused).2.symm
    · split at refused
      · exact (Prod.mk.inj refused).2.symm
      · cases refused

/-- A message consumes `msglen` bytes, which are there. -/
theorem decode_some {s after : Buffer} {msg : Message}
    (decoded : decode pb s = (some msg, after)) :
    s.msglen ≤ s.size ∧ after.contents = s.contents.drop s.msglen := by
  unfold decode at decoded
  by_cases short : s.size < 8
  · rw [if_pos short] at decoded
    cases decoded
  rw [if_neg short] at decoded
  simp only at decoded
  split_ifs at decoded with bad unknown
  · cases decoded
  · cases decoded
  · have fits : s.msglen ≤ s.size := by
      unfold Buffer.msglen
      omega
    obtain ⟨rest, consumed, left⟩ := Buffer.consume_spec fits
    unfold Buffer.msglen at consumed
    rw [consumed] at decoded
    split at decoded
    · cases decoded
    · cases decoded
      exact ⟨fits, left⟩

/-- `decode` stays within the frame: what it reads is read only if the name is inside the
message and the message inside the buffer, without a message the buffer is unchanged, and a
message consumes exactly its length. -/
structure WithinFrame (s : Buffer) : Prop where
  reads : ∀ reading ∈ (decodeReading pb s).1, 8 + s.namelen ≤ s.msglen ∧ s.msglen ≤ s.size
  refused : ∀ after, decode pb s = (none, after) → after = s
  decoded : ∀ msg after, decode pb s = (some msg, after) →
    s.msglen ≤ s.size ∧ after.contents = s.contents.drop s.msglen

/-- **`decode` stays within the frame exactly if the lengths that pass its checks agree**: a
buffer that is refused for its sizes, or whose name ends inside the message. -/
theorem decode_within_frame_iff (s : Buffer) :
    WithinFrame pb s ↔
      (8 ≤ s.size → s.msglen ≤ s.size → (4 + s.namelen) % 2 ^ 32 ≤ s.size →
        8 + s.namelen ≤ s.msglen) := by
  constructor
  · intro within enough whole named
    have admitted : Admitted s := ⟨enough, whole, named⟩
    obtain ⟨reading, member⟩ := List.exists_mem_of_ne_nil _
      fun none => (readings_eq_nil_iff pb s).mp none admitted
    exact (within.reads reading member).1
  · intro agree
    refine ⟨fun reading member => ?_, fun after => decode_none pb,
      fun msg after => decode_some pb⟩
    have admitted : Admitted s := by
      by_contra refused
      rw [(readings_eq_nil_iff pb s).mpr refused] at member
      cases member
    obtain ⟨enough, whole, named⟩ := admitted
    exact ⟨agree enough whole named, whole⟩

/-- Where a reading ends, counted from `begin()`. -/
def Reading.stop : Reading → ℤ
  | .typeName length => 8 + length
  | .parseFromArray start size => start + size

/-- Within the frame, no reading goes past the message. -/
theorem WithinFrame.stop_le {s : Buffer} (within : WithinFrame pb s) (small : s.msglen < 2 ^ 31)
    {reading : Reading} (member : reading ∈ (decodeReading pb s).1) :
    reading.stop ≤ s.msglen := by
  obtain ⟨named, -⟩ := within.reads reading member
  rcases reading_eq pb member with rfl | rfl
  · show (8 + s.namelen : ℤ) ≤ s.msglen
    omega
  · show ((8 + s.namelen : ℕ) : ℤ) + toInt32 (s.msglen - 8 - s.namelen) ≤ s.msglen
    have size : (s.msglen : ℤ) - 8 - s.namelen = (s.msglen - 8 - s.namelen : ℕ) := by omega
    rw [size, toInt32_eq (by omega)]
    omega

/-- Eight bytes that announce a message of eight bytes and a name of four. -/
theorem name_behind_message :
    ¬ WithinFrame byteMessages (Buffer.new.append [8, 0, 0, 0, 4, 0, 0, 0]) := by
  intro within
  have reads := within.reads (.typeName 4) (by decide +kernel)
  exact absurd reads.1 (by decide +kernel)

end ProtoMsgCodec

end Handy
