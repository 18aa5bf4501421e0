import Purgery.Pipe.Tail

namespace Purgery

open Pipe

/-- What a read of at most 4096 bytes from a pipe may answer. A pipe that has
no more answers is at its end. -/
inductive PipeRead where
  | data (chunk : List UInt8)
  | interrupted
  | failed (error : String)

def chunkBytes : Nat := 4096

/-- A read that gives some bytes, or is to be tried again. -/
def PipeRead.Regular : PipeRead → Prop
  | .data chunk => 1 ≤ chunk.length ∧ chunk.length ≤ chunkBytes
  | .interrupted => True
  | .failed _ => False

def PipeRead.bytes : PipeRead → List UInt8
  | .data chunk => chunk
  | _ => []

def streamOf (reads : List PipeRead) : List UInt8 := reads.flatMap PipeRead.bytes

def truncationMarker (maxBytes : Nat) : List UInt8 :=
  ("...(output truncated; showing last " ++ toString maxBytes ++ " bytes)...\n").toUTF8.toList

/-- The marker stands before an output that was cut. -/
def Pipe.Tail.output (maxBytes : Nat) (t : Tail UInt8) : List UInt8 :=
  if t.truncated then truncationMarker maxBytes ++ t.buf else t.buf

namespace Server

def maxTransformOutputBytes : Nat := 64 * 1024

def readBounded (t : Tail UInt8) : List PipeRead → Except String (Tail UInt8)
  | [] => .ok t
  | .data [] :: _ => .ok t
  | .data (b :: chunk) :: rest => readBounded (t.push maxTransformOutputBytes (b :: chunk)) rest
  | .interrupted :: rest => readBounded t rest
  | .failed e :: _ => .error ("pipe read error: " ++ e)

def boundedOutputReader (reads : List PipeRead) : Except String (List UInt8) :=
  (readBounded .empty reads).map (Tail.output maxTransformOutputBytes)

end Server

namespace Client

def maxStdoutBytes : Nat := 64 * 1024

def maxStderrBytes : Nat := 64 * 1024

/-- An error ends the output. -/
def drain (maxBytes : Nat) (t : Tail UInt8) : List PipeRead → Tail UInt8
  | [] => t
  | .data [] :: _ => t
  | .data (b :: chunk) :: rest => drain maxBytes (t.push maxBytes (b :: chunk)) rest
  | .interrupted :: rest => drain maxBytes t rest
  | .failed _ :: _ => t

def spawnDrainer (reads : List PipeRead) (maxBytes : Nat) : List UInt8 :=
  (drain maxBytes .empty reads).output maxBytes

end Client

section Regular

variable {reads : List PipeRead} {t : Tail UInt8} {stream : List UInt8} {n : Nat}

/-- The whole stream if it is short enough, else its end behind the marker. -/
def boundedOutput (n : Nat) (stream : List UInt8) : List UInt8 :=
  if stream.length ≤ n then stream
  else truncationMarker n ++ stream.drop (stream.length - n)

theorem Pipe.Tail.Keeps.output (h : t.Keeps n chunkBytes stream) :
    t.output n = boundedOutput n stream := by
  unfold Tail.output boundedOutput
  rw [h.truncated, h.buf]
  by_cases hle : stream.length ≤ n
  · rw [if_pos hle, if_neg, Tail.rtake_of_le hle]
    rw [decide_eq_true_eq]
    omega
  · rw [if_neg hle, if_pos, List.rtake]
    rw [decide_eq_true_eq]
    omega

theorem Client.drain_keeps (hreads : ∀ r ∈ reads, r.Regular) (h : t.Keeps n chunkBytes stream) :
    (drain n t reads).Keeps n chunkBytes (stream ++ streamOf reads) := by
  induction reads generalizing t stream with
  | nil =>
    rw [streamOf, List.flatMap_nil, List.append_nil]
    exact h
  | cons r reads ih =>
    obtain ⟨hr, hrest⟩ := List.forall_mem_cons.1 hreads
    rw [streamOf, List.flatMap_cons, ← List.append_assoc]
    cases r with
    | data chunk =>
      cases chunk with
      | nil => exact absurd hr.1 (Nat.not_succ_le_zero 0)
      | cons b chunk => exact ih hrest (h.push hr.2)
    | interrupted =>
      have hbytes : PipeRead.interrupted.bytes = [] := rfl
      rw [hbytes, List.append_nil]
      exact ih hrest h
    | failed e => exact hr.elim

/-- Without errors the two loops do the same. -/
theorem Server.readBounded_eq_drain (hreads : ∀ r ∈ reads, r.Regular) :
    readBounded t reads = .ok (Client.drain maxTransformOutputBytes t reads) := by
  induction reads generalizing t with
  | nil => rfl
  | cons r reads ih =>
    obtain ⟨hr, hrest⟩ := List.forall_mem_cons.1 hreads
    cases r with
    | data chunk =>
      cases chunk with
      | nil => rfl
      | cons b chunk => exact ih hrest
    | interrupted => exact ih hrest
    | failed e => exact hr.elim

/-- However a pipe cuts its stream into reads, both readers return the stream,
or the marker and its end when it is too long, in a buffer that one read at
most exceeds. -/
theorem tails_bounded (reads : List PipeRead) (hreads : ∀ r ∈ reads, r.Regular) :
    Server.boundedOutputReader reads =
      .ok (boundedOutput Server.maxTransformOutputBytes (streamOf reads)) ∧
    (∀ n, Client.spawnDrainer reads n = boundedOutput n (streamOf reads)) ∧
    Server.boundedOutputReader reads = .ok (Client.spawnDrainer reads Client.maxStdoutBytes) ∧
    Server.boundedOutputReader reads = .ok (Client.spawnDrainer reads Client.maxStderrBytes) ∧
    (∃ t, Server.readBounded .empty reads = .ok t ∧
      t.peak ≤ Server.maxTransformOutputBytes + chunkBytes) ∧
    ∀ n, (Client.drain n .empty reads).peak ≤ n + chunkBytes := by
  have hkeeps : ∀ n, (Client.drain n .empty reads).Keeps n chunkBytes (streamOf reads) :=
    fun n => Client.drain_keeps hreads .empty
  have hdrainer : ∀ n, Client.spawnDrainer reads n = boundedOutput n (streamOf reads) :=
    fun n => (hkeeps n).output
  have hloop := Server.readBounded_eq_drain (t := .empty) hreads
  have hreader : Server.boundedOutputReader reads =
      .ok (boundedOutput Server.maxTransformOutputBytes (streamOf reads)) := by
    rw [Server.boundedOutputReader, hloop, ← hdrainer]
    rfl
  refine ⟨hreader, hdrainer, ?_, ?_, ⟨_, hloop, (hkeeps _).peak⟩, fun n => (hkeeps n).peak⟩
  · rw [hreader, hdrainer]
    rfl
  · rw [hreader, hdrainer]
    rfl

theorem tails_bounded_hello :
    Server.boundedOutputReader [.data [104, 101], .interrupted, .data [121]] =
      .ok [104, 101, 121] ∧
    Client.spawnDrainer [.data [104, 101], .interrupted, .data [121]] 2 =
      boundedOutput 2 [104, 101, 121] := by
  have h := tails_bounded [.data [104, 101], .interrupted, .data [121]]
    (by simp [PipeRead.Regular, chunkBytes])
  exact ⟨h.1, h.2.1 2⟩

end Regular

end Purgery
