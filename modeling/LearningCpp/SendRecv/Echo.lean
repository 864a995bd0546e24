import Mathlib

/-!
# The echo program

`beej/send_recv.c`, from the accepted connection on. One loop receives into a
buffer on the stack until it is full or the peer has finished, another one
sends from it, and both count in `bytes`. That is a `ssize_t`, which the
comparisons and the lengths convert to the `size_t` of `sizeof(buf)`.

`recv` and `send` belong to the operating system. A run is told what they
return, in the order of the calls, and there is no run with a reply the call
could not have given: more bytes than it was handed room for.

The second loop begins by setting `bytes` to zero, and with it goes the number
of bytes the first loop has stored. What it sends are the bytes of the buffer
up to wherever `send` stops accepting them, and only a failure stops it before
the end of the buffer. After a short message these are the message and whatever
the stack held.
-/

namespace LearningCpp.SendRecv

/-- A byte on the stack, `none` as long as nothing has been stored there. -/
abbrev StackByte := Option UInt8

/-- What `recv` answers: the bytes it has stored, or -1. It returns how many
they are, and none of them is the end of the stream. -/
inductive RecvReply where
  | stored (chunk : List UInt8)
  | failed
deriving DecidableEq, Repr

/-- What `send` answers: how many bytes it has accepted, or -1. -/
inductive SendReply where
  | accepted (sent : ℕ)
  | failed
deriving DecidableEq, Repr

/-- `sizeof(buf)` -/
def sizeofBuf : ℕ := 1024

/-- A `ssize_t` converted to `size_t`. -/
def toSize (bytes : Int) : ℕ := (bytes % 2 ^ 64).toNat

/-- `sizeof(buf)-bytes`, which is a `size_t`. -/
def remaining (bytes : Int) : ℕ := toSize (sizeofBuf - toSize bytes)

/-- `chunk` copied to `buf+bytes`. -/
def store (buf : List StackByte) (bytes : Int) (chunk : List UInt8) :
    List StackByte :=
  buf.take bytes.toNat ++ chunk.map some ++
    buf.drop (bytes.toNat + chunk.length)

/-- The first loop, from the top of its body to its end: the buffer it leaves.
There is none while `recv` has not returned. -/
def recvLoop (buf : List StackByte) (bytes : Int) :
    List RecvReply → Option (List StackByte)
  | [] => none
  | .failed :: replies => if replies.isEmpty then some buf else none
  | .stored chunk :: replies =>
      if chunk.length > remaining bytes then none
      else
        let buf := store buf bytes chunk
        let bytes := bytes + chunk.length
        if toSize bytes < sizeofBuf ∧ chunk.length ≠ 0 then
          recvLoop buf bytes replies
        else if replies.isEmpty then some buf
        else none

/-- What the second loop has sent, and whether it has come to its end. -/
structure Sent where
  bytes : List StackByte
  finished : Bool
deriving DecidableEq, Repr

/-- The second loop, from the top of its body. -/
def sendLoop (buf : List StackByte) (bytes : Int) :
    List SendReply → Option Sent
  | [] => some ⟨[], false⟩
  | .failed :: replies =>
      if replies.isEmpty then some ⟨[], true⟩ else none
  | .accepted sent :: replies =>
      if sent > remaining bytes then none
      else
        let accepted := (buf.drop bytes.toNat).take sent
        let bytes := bytes + sent
        if toSize bytes < sizeofBuf then
          (sendLoop buf bytes replies).map
            (fun rest => { rest with bytes := accepted ++ rest.bytes })
        else if replies.isEmpty then some ⟨accepted, true⟩
        else none

/-- The two loops of `main`. Before the first one has ended there is nothing
the second could have sent. -/
def echo (recvs : List RecvReply) (sends : List SendReply) : Option Sent := do
  let buf ← recvLoop (List.replicate sizeofBuf none) 0 recvs
  sendLoop buf 0 sends

/-- The bytes a reply of `recv` stored. -/
def RecvReply.chunk : RecvReply → List UInt8
  | .stored chunk => chunk
  | .failed => []

/-- What the peer has sent, as far as the program received it. -/
def received (recvs : List RecvReply) : List UInt8 :=
  recvs.flatMap RecvReply.chunk

def SendReply.count : SendReply → ℕ
  | .accepted sent => sent
  | .failed => 0

/-- How many bytes the replies of `send` accept. -/
def accepts (sends : List SendReply) : ℕ := (sends.map SendReply.count).sum

/-- What has been sent is a part of the message from its front on, and the
whole of it once the loop has ended without a failure. -/
def EchoesExactly (recvs : List RecvReply) (sends : List SendReply)
    (sent : Sent) : Prop :=
  sent.bytes <+: (received recvs).map some ∧
    (sent.finished = true → .failed ∉ sends →
      sent.bytes = (received recvs).map some)

/-! ## Sizes -/

section Sizes

variable {k : ℕ}

theorem toSize_natCast (hk : k ≤ sizeofBuf) : toSize k = k := by
  unfold toSize
  unfold sizeofBuf at hk
  omega

theorem remaining_natCast (hk : k ≤ sizeofBuf) :
    remaining k = sizeofBuf - k := by
  unfold remaining
  rw [toSize_natCast hk, ← Int.ofNat_sub hk]
  exact toSize_natCast (Nat.sub_le _ _)

end Sizes

/-! ## Receiving -/

/-- The buffer with a message at its front. -/
def holding (message : List UInt8) : List StackByte :=
  message.map some ++ List.replicate (sizeofBuf - message.length) none

theorem length_holding {message : List UInt8}
    (h : message.length ≤ sizeofBuf) :
    (holding message).length = sizeofBuf := by
  simp [holding]
  omega

theorem store_holding {message chunk : List UInt8} :
    store (holding message) message.length chunk =
      holding (message ++ chunk) := by
  have hfront : (holding message).take message.length = message.map some := by
    simp [holding]
  have hback : (holding message).drop (message.length + chunk.length) =
      List.replicate (sizeofBuf - (message ++ chunk).length) none := by
    simp [holding, List.drop_append, Nat.sub_sub]
  rw [store, Int.toNat_natCast, hfront, hback, holding, List.map_append]

/-- One round with a chunk stored: the loop goes on, or that was all. -/
theorem recvLoop_stored {message chunk : List UInt8}
    {replies : List RecvReply} {buf : List StackByte}
    (hmessage : message.length ≤ sizeofBuf)
    (hrun : recvLoop (holding message) message.length
      (.stored chunk :: replies) = some buf) :
    (message ++ chunk).length ≤ sizeofBuf ∧
      (recvLoop (holding (message ++ chunk)) (message ++ chunk).length
          replies = some buf ∨
        replies = [] ∧ buf = holding (message ++ chunk)) := by
  have hbytes : (message.length : Int) + chunk.length =
      (message ++ chunk).length := by simp
  simp only [recvLoop, remaining_natCast hmessage, store_holding, hbytes,
    List.isEmpty_iff] at hrun
  split at hrun
  · cases hrun
  · next hroom =>
      refine ⟨by simp; omega, ?_⟩
      split at hrun
      · exact Or.inl hrun
      · split at hrun
        · next hlast =>
            cases hrun
            exact Or.inr ⟨hlast, rfl⟩
        · cases hrun

theorem recvLoop_failed {buf buf' : List StackByte} {bytes : Int}
    {replies : List RecvReply}
    (hrun : recvLoop buf bytes (.failed :: replies) = some buf') :
    replies = [] ∧ buf' = buf := by
  simp only [recvLoop, List.isEmpty_iff] at hrun
  split at hrun
  · next hlast =>
      cases hrun
      exact ⟨hlast, rfl⟩
  · cases hrun

@[simp] theorem received_nil : received [] = [] := rfl

@[simp] theorem received_stored (chunk : List UInt8)
    (replies : List RecvReply) :
    received (.stored chunk :: replies) = chunk ++ received replies := rfl

@[simp] theorem received_failed (replies : List RecvReply) :
    received (.failed :: replies) = received replies := rfl

/-- However the message is cut into chunks, the loop leaves it at the front of
the buffer. -/
theorem recvLoop_holding {replies : List RecvReply} {buf : List StackByte} :
    ∀ {message : List UInt8}, message.length ≤ sizeofBuf →
      recvLoop (holding message) message.length replies = some buf →
      buf = holding (message ++ received replies) ∧
        (message ++ received replies).length ≤ sizeofBuf := by
  induction replies with
  | nil =>
      intro message _ hrun
      cases hrun
  | cons reply replies ih =>
      intro message hmessage hrun
      cases reply with
      | failed =>
          obtain ⟨rfl, rfl⟩ := recvLoop_failed hrun
          simp [hmessage]
      | stored chunk =>
          rw [received_stored, ← List.append_assoc]
          obtain ⟨hlength, hrest | ⟨rfl, rfl⟩⟩ :=
            recvLoop_stored hmessage hrun
          · exact ih hlength hrest
          · rw [received_nil, List.append_nil]
            exact ⟨rfl, hlength⟩

/-! ## Sending -/

/-- One round with some bytes accepted: the loop goes on, or has sent the end of
the buffer. -/
theorem sendLoop_accepted {buf : List StackByte} {k n : ℕ}
    {replies : List SendReply} {sent : Sent} (hk : k ≤ sizeofBuf)
    (hrun : sendLoop buf k (.accepted n :: replies) = some sent) :
    k + n ≤ sizeofBuf ∧
      ((∃ rest, sendLoop buf (k + n : ℕ) replies = some rest ∧
          sent = ⟨(buf.drop k).take n ++ rest.bytes, rest.finished⟩) ∨
        (k + n = sizeofBuf ∧ replies = [] ∧
          sent = ⟨(buf.drop k).take n, true⟩)) := by
  have hbytes : (k : Int) + n = (k + n : ℕ) := by simp
  simp only [sendLoop, remaining_natCast hk, Int.toNat_natCast, hbytes,
    List.isEmpty_iff] at hrun
  split at hrun
  · cases hrun
  · next hroom =>
      have hn : k + n ≤ sizeofBuf := by omega
      rw [toSize_natCast hn] at hrun
      refine ⟨hn, ?_⟩
      split at hrun
      · obtain ⟨rest, hrest, hsent⟩ := Option.map_eq_some_iff.1 hrun
        exact Or.inl ⟨rest, hrest, hsent.symm⟩
      · split at hrun
        · next hlast =>
            cases hrun
            exact Or.inr ⟨by omega, hlast, rfl⟩
        · cases hrun

theorem sendLoop_failed {buf : List StackByte} {bytes : Int}
    {replies : List SendReply} {sent : Sent}
    (hrun : sendLoop buf bytes (.failed :: replies) = some sent) :
    replies = [] ∧ sent = ⟨[], true⟩ := by
  simp only [sendLoop, List.isEmpty_iff] at hrun
  split at hrun
  · next hlast =>
      cases hrun
      exact ⟨hlast, rfl⟩
  · cases hrun

@[simp] theorem accepts_nil : accepts [] = 0 := rfl

@[simp] theorem accepts_accepted (n : ℕ) (replies : List SendReply) :
    accepts (.accepted n :: replies) = n + accepts replies := by
  simp [accepts, SendReply.count]

@[simp] theorem accepts_failed (replies : List SendReply) :
    accepts (.failed :: replies) = accepts replies := by
  simp [accepts, SendReply.count]

/-- The loop sends the buffer from where it is on, as much of it as the calls
accept, and without a failure it ends at the end of the buffer only. -/
theorem sendLoop_spec {buf : List StackByte} {replies : List SendReply} :
    ∀ {k : ℕ} {sent : Sent}, k ≤ sizeofBuf →
      sendLoop buf k replies = some sent →
      sent.bytes = (buf.drop k).take (accepts replies) ∧
        k + accepts replies ≤ sizeofBuf ∧
        (sent.finished = true → .failed ∉ replies →
          k + accepts replies = sizeofBuf) := by
  induction replies with
  | nil =>
      intro k sent hk hrun
      cases hrun
      simp [hk]
  | cons reply replies ih =>
      intro k sent hk hrun
      cases reply with
      | failed =>
          obtain ⟨rfl, rfl⟩ := sendLoop_failed hrun
          simp [hk]
      | accepted n =>
          rw [accepts_accepted]
          obtain ⟨hn, ⟨rest, hrest, rfl⟩ | ⟨hend, rfl, rfl⟩⟩ :=
            sendLoop_accepted hk hrun
          · obtain ⟨hsame, hroom, hend⟩ := ih hn hrest
            have hfailed : SendReply.failed ∉ .accepted n :: replies ↔
                .failed ∉ replies := by simp
            rw [hfailed, ← Nat.add_assoc, hsame]
            refine ⟨?_, hroom, hend⟩
            rw [List.take_add, List.drop_drop]
          · rw [accepts_nil, Nat.add_zero]
            exact ⟨rfl, hn, fun _ _ => hend⟩

/-- What the whole program has sent. -/
theorem echo_spec {recvs : List RecvReply} {sends : List SendReply}
    {sent : Sent} (h : echo recvs sends = some sent) :
    sent.bytes = (holding (received recvs)).take (accepts sends) ∧
      (received recvs).length ≤ sizeofBuf ∧ accepts sends ≤ sizeofBuf ∧
      (sent.finished = true → .failed ∉ sends →
        accepts sends = sizeofBuf) := by
  obtain ⟨buf, hrecv, hsend⟩ := Option.bind_eq_some_iff.1 h
  have hrecv : recvLoop (holding []) ([] : List UInt8).length recvs =
      some buf := hrecv
  obtain ⟨hbuf, hreceived⟩ := recvLoop_holding (Nat.zero_le _) hrecv
  obtain ⟨hsent, hroom, hend⟩ := sendLoop_spec (k := 0) (Nat.zero_le _) hsend
  simp only [List.nil_append, List.drop_zero, Nat.zero_add] at *
  rw [hsent, hbuf]
  exact ⟨rfl, hreceived, hroom, hend⟩

/-- A run that ends without a failure has sent the buffer, and so is exact only
if the message was as long. -/
theorem echo_all {recvs : List RecvReply} {sends : List SendReply}
    {sent : Sent} (h : echo recvs sends = some sent)
    (hfinished : sent.finished = true) (hfailed : .failed ∉ sends) :
    sent.bytes = holding (received recvs) := by
  obtain ⟨hsent, hreceived, _, hend⟩ := echo_spec h
  rw [hsent, hend hfinished hfailed]
  exact List.take_of_length_le (length_holding hreceived).le

/-- The echo is exact as long as no more has been sent than was received. A
run that ends without a failure sends the whole buffer, and its echo is exact
if the whole buffer was received. -/
theorem echoesExactly_iff {recvs : List RecvReply} {sends : List SendReply}
    {sent : Sent} (h : echo recvs sends = some sent) :
    (EchoesExactly recvs sends sent ↔
      accepts sends ≤ (received recvs).length) ∧
      (sent.finished = true → .failed ∉ sends →
        (EchoesExactly recvs sends sent ↔
          (received recvs).length = sizeofBuf)) := by
  obtain ⟨hsent, hreceived, haccepts, hend⟩ := echo_spec h
  have hlength : sent.bytes.length = accepts sends := by
    rw [hsent, List.length_take, length_holding hreceived]
    omega
  have hiff : EchoesExactly recvs sends sent ↔
      accepts sends ≤ (received recvs).length := by
    constructor
    · intro hexact
      have hprefix := hexact.1.length_le
      rwa [hlength, List.length_map] at hprefix
    · intro hle
      have hfront : sent.bytes =
          ((received recvs).map some).take (accepts sends) := by
        rw [hsent, holding, List.take_append_of_le_length (by simpa using hle)]
      rw [EchoesExactly, hfront]
      refine ⟨List.take_prefix _ _, ?_⟩
      intro hfinished hfailed
      have hall := hend hfinished hfailed
      exact List.take_of_length_le (by simp; omega)
  refine ⟨hiff, ?_⟩
  intro hfinished hfailed
  have hall := hend hfinished hfailed
  rw [hiff]
  omega

/-- The peer sends one byte, and has gone when the second is returned. -/
theorem echoesExactly_iff_failed :
    EchoesExactly [.stored [97], .stored []] [.accepted 1, .failed]
      ⟨[some 97], true⟩ :=
  (echoesExactly_iff rfl).1.2 (by decide)

/-- Of a message of three bytes 1024 are sent back. -/
theorem echo_three :
    ∃ sent, echo [.stored [97, 98, 99], .stored []] [.accepted 1024] =
        some sent ∧
      sent.bytes = [some 97, some 98, some 99] ++ List.replicate 1021 none ∧
      ¬ EchoesExactly [.stored [97, 98, 99], .stored []] [.accepted 1024]
        sent := by
  have hrun : (echo [.stored [97, 98, 99], .stored []]
      [.accepted 1024]).map Sent.finished = some true := by decide
  obtain ⟨sent, hrun, hfinished⟩ := Option.map_eq_some_iff.1 hrun
  have hsent : sent.bytes = holding [97, 98, 99] :=
    echo_all hrun hfinished (by decide)
  refine ⟨sent, hrun, hsent, ?_⟩
  intro hexact
  have hlength := hexact.1.length_le
  rw [hsent, length_holding (by decide)] at hlength
  exact absurd hlength (by decide)

end LearningCpp.SendRecv
