import Cdx.Crypto.Hash
import Cdx.Lib.Framing

namespace cdx

open codec framing

def MAX_MESSAGE_SIZE : Nat := 4 * 1024 * 1024

/-- A message: its command is a byte string, as it is read from the wire. -/
structure CNetMessage where
  command : Bytes
  payload : Bytes
deriving DecidableEq

def knownCommands : List Bytes :=
  ["version", "verack", "addr", "getaddr", "inv", "getdata", "tx", "block", "getblocks", "getheaders", "headers", "ping",
    "pong"].map ascii

def isKnownCommand (cmd : Bytes) : Bool := knownCommands.any fun k => k == cmd

/-- The command field: twelve bytes, padded with zeros. -/
def commandField (command : Bytes) : Bytes := command ++ List.replicate (12 - command.length) 0

section Messages

variable [Crypto]

/-- The first four bytes of the double hash. -/
def checksum (payload : Bytes) : Bytes := (Crypto.sha256 (Crypto.sha256 payload)).take 4

/-- The four fields before the payload. -/
def messageHeader (magic : UInt32) (command payload : Bytes) : Bytes :=
  leEncode 4 magic.toNat ++ (commandField command ++ (leEncode 4 payload.length ++ checksum payload))

def buildMessage (magic : UInt32) (command payload : Bytes) : Option Bytes :=
  if command.length > 12 ∨ payload.length > MAX_MESSAGE_SIZE then none
  else some (messageHeader magic command payload ++ payload)

/-- The bytes that `BuildMessage` puts on the wire for a message it accepts. -/
def messageFrame (magic : UInt32) (msg : CNetMessage) : Bytes := messageHeader magic msg.command msg.payload ++ msg.payload

/-- The code's results -1, 0 and 1 are the three constructors. -/
def parseMessage (magic : UInt32) (data : Bytes) : Parsed CNetMessage :=
  if data.length < 24 then .incomplete
  else if leDecode (data.take 4) ≠ magic.toNat then .invalid
  else
    let command := ((data.drop 4).take 12).takeWhile (· ≠ 0)
    if ¬ isKnownCommand command then .invalid
    else
      let payloadLen := leDecode ((data.drop 16).take 4)
      if payloadLen > MAX_MESSAGE_SIZE then .invalid
      else if data.length < 24 + payloadLen then .incomplete
      else
        let payload := (data.drop 24).take payloadLen
        if checksum payload ≠ (data.drop 20).take 4 then .invalid
        else .complete { command := command, payload := payload } (24 + payloadLen)

theorem length_checksum (payload : Bytes) : (checksum payload).length = 4 := by
  rw [checksum, List.length_take, Crypto.sha256_length]
  rfl

omit [Crypto] in
theorem length_commandField {command : Bytes} (hlength : command.length ≤ 12) : (commandField command).length = 12 := by
  rw [commandField, List.length_append, List.length_replicate]
  omega

theorem length_messageHeader (magic : UInt32) {command : Bytes} (hlength : command.length ≤ 12) (payload : Bytes) :
    (messageHeader magic command payload).length = 24 := by
  simp only [messageHeader, List.length_append, length_leEncode, length_commandField hlength, length_checksum]

omit [Crypto] in
/-- What `IsKnownCommand` gives the framing: a known command fits the field and has no zero byte. -/
theorem isKnownCommand_spec {command : Bytes} (hknown : isKnownCommand command = true) :
    command.length ≤ 12 ∧ ∀ b ∈ command, b ≠ 0 := by
  obtain ⟨k, hk, hsame⟩ := List.any_eq_true.mp hknown
  obtain rfl := beq_iff_eq.mp hsame
  have hall : ∀ k ∈ knownCommands, k.length ≤ 12 ∧ k.all (· ≠ 0) = true := by decide +kernel
  obtain ⟨hlength, hnonzero⟩ := hall k hk
  refine ⟨hlength, fun b hb => ?_⟩
  simpa using List.all_eq_true.mp hnonzero b hb

omit [Crypto] in
/-- Stripping the padding gives the command back. -/
theorem takeWhile_commandField {command : Bytes} (hzero : ∀ b ∈ command, b ≠ 0) :
    (commandField command).takeWhile (· ≠ 0) = command := by
  have hcommand : ∀ b ∈ command, decide (b ≠ 0) = true := fun b hb => decide_eq_true (hzero b hb)
  rw [commandField, List.takeWhile_append_of_pos hcommand]
  cases hpadding : 12 - command.length with
  | zero => rw [List.replicate_zero, List.takeWhile_nil, List.append_nil]
  | succ n => rw [List.replicate_succ, List.takeWhile_cons_of_neg (by simp), List.append_nil]

/-- After a header that `BuildMessage` wrote, only the bytes of the payload matter. -/
theorem parseMessage_header_append {magic : UInt32} {command payload : Bytes} (hknown : isKnownCommand command = true)
    (hpayload : payload.length ≤ MAX_MESSAGE_SIZE) (tail : Bytes) :
    parseMessage magic (messageHeader magic command payload ++ tail) =
      if tail.length < payload.length then .incomplete
      else if checksum (tail.take payload.length) ≠ checksum payload then .invalid
      else .complete { command := command, payload := tail.take payload.length } (24 + payload.length) := by
  obtain ⟨hlength, hzero⟩ := isKnownCommand_spec hknown
  have hheader := length_messageHeader magic hlength payload
  have hfield := length_commandField hlength
  have hsum := length_checksum payload
  have hmagic : (messageHeader magic command payload ++ tail).take 4 = leEncode 4 magic.toNat := by
    rw [messageHeader, List.append_assoc, List.take_left' (length_leEncode 4 _)]
  have hcommand : ((messageHeader magic command payload ++ tail).drop 4).take 12 = commandField command := by
    rw [messageHeader, List.append_assoc, List.drop_left' (length_leEncode 4 _), List.append_assoc, List.take_left' hfield]
  have hafter : (messageHeader magic command payload ++ tail).drop 16 =
      leEncode 4 payload.length ++ (checksum payload ++ tail) := by
    rw [show 16 = 4 + 12 from rfl, ← List.drop_drop, messageHeader, List.append_assoc,
      List.drop_left' (length_leEncode 4 _), List.append_assoc, List.drop_left' hfield, List.append_assoc]
  have hlen : ((messageHeader magic command payload ++ tail).drop 16).take 4 = leEncode 4 payload.length := by
    rw [hafter, List.take_left' (length_leEncode 4 _)]
  have hchecksum : ((messageHeader magic command payload ++ tail).drop 20).take 4 = checksum payload := by
    rw [show 20 = 16 + 4 from rfl, ← List.drop_drop, hafter, List.drop_left' (length_leEncode 4 _), List.take_left' hsum]
  have htail : (messageHeader magic command payload ++ tail).drop 24 = tail := List.drop_left' hheader
  have hmagicValue : leDecode (leEncode 4 magic.toNat) = magic.toNat := leDecode_leEncode_of_lt magic.toNat_lt
  have hlenValue : leDecode (leEncode 4 payload.length) = payload.length := by
    apply leDecode_leEncode_of_lt
    exact hpayload.trans_lt (by decide)
  have htotal : (messageHeader magic command payload ++ tail).length = 24 + tail.length := by
    rw [List.length_append, hheader]
  unfold parseMessage
  simp only [hmagic, hcommand, hlen, hchecksum, htail, hmagicValue, hlenValue, htotal, takeWhile_commandField hzero, hknown]
  rw [if_neg (by omega), if_neg (by simp), if_neg (by simp), if_neg (by omega)]
  by_cases hshort : tail.length < payload.length
  · rw [if_pos hshort, if_pos (by omega)]
  · rw [if_neg hshort, if_neg (by omega)]

/-- `ParseMessage` finds a message in the frame that `BuildMessage` made for it. -/
theorem framed_messageFrame {magic : UInt32} {msg : CNetMessage} (hknown : isKnownCommand msg.command = true)
    (hpayload : msg.payload.length ≤ MAX_MESSAGE_SIZE) : Framed (parseMessage magic) (messageFrame magic msg) msg := by
  obtain ⟨command, payload⟩ := msg
  have hheader := length_messageHeader magic (isKnownCommand_spec hknown).1 payload
  refine ⟨?_, ?_⟩
  · intro part rest hpart hrest
    by_cases hshort : part.length < 24
    · unfold parseMessage
      rw [if_pos hshort]
    · obtain ⟨tail, rfl⟩ : messageHeader magic command payload <+: part :=
        List.prefix_of_prefix_length_le (List.prefix_append _ payload) ⟨rest, hpart⟩ (by rw [hheader]; omega)
      rw [List.append_assoc, messageFrame, List.append_cancel_left_eq] at hpart
      have hrestLength := List.length_pos_of_ne_nil hrest
      have htail := congrArg List.length hpart
      rw [List.length_append] at htail
      rw [parseMessage_header_append hknown hpayload, if_pos (by omega)]
  · intro rest
    have htotal : (messageFrame magic ⟨command, payload⟩).length = 24 + payload.length := by
      rw [messageFrame, List.length_append, hheader]
    rw [htotal, messageFrame, List.append_assoc, parseMessage_header_append hknown hpayload, List.take_left,
      if_neg (by rw [List.length_append]; omega), if_neg (not_not.mpr rfl)]

theorem buildMessage_of_known (magic : UInt32) {msg : CNetMessage} (hknown : isKnownCommand msg.command = true)
    (hpayload : msg.payload.length ≤ MAX_MESSAGE_SIZE) :
    buildMessage magic msg.command msg.payload = some (messageFrame magic msg) := by
  have hlength := (isKnownCommand_spec hknown).1
  unfold buildMessage
  rw [if_neg (by omega)]
  rfl

/-- A complete message takes at least its header off the buffer. -/
theorem parseMessage_consumed {magic : UInt32} {data : Bytes} {msg : CNetMessage} {consumed : Nat}
    (hparse : parseMessage magic data = .complete msg consumed) : 24 ≤ consumed ∧ consumed ≤ data.length := by
  unfold parseMessage at hparse
  simp only at hparse
  split at hparse
  · cases hparse
  · split at hparse
    · cases hparse
    · split at hparse
      · cases hparse
      · split at hparse
        · cases hparse
        · split at hparse
          · cases hparse
          next hwhole =>
            split at hparse
            · cases hparse
            · cases hparse
              omega

end Messages

end cdx
