import Kage.RequestHandlers
import Kage.FieldRoundTrips

/-!
# Pipelined requests

A client may send any number of requests before it reads an answer. If each is
encoded as its parser expects, the loop over the connection takes them off the
stream one by one, each from its first byte to its last, and what it has sent in
the end is one framed message for each request, in order, except for the produce
requests that ask for no answer. A message begins with the correlation id of its
request. Its size is written in thirty-two bits.

The parsers of two requests refuse counts above 1024. Such a request closes the
connection without an answer.
-/
namespace Kage.PipelinedRequests
open ByteStrings LengthPrefixed FaultyDisk StreamParsers WireLayouts OffsetRecords OffsetHandlers
open OffsetStorage RequestParsers ResponseEncoders FieldRoundTrips RequestHandlers

/-- A request as a client encodes it. -/
structure ClientRequest where
  apiKey : Int16
  apiVersion : Int16
  correlationID : Int32
  clientID : Option WireString
  body : Bytes

namespace ClientRequest

def bytes (r : ClientRequest) : Bytes :=
  writeInt16 r.apiKey++(writeInt16 r.apiVersion++(writeInt32 r.correlationID++
    (writeNullableString (r.clientID.map Subtype.val)++r.body)))

/-- The key is supported and the body has the layout of the key and version. -/
def Encoded (r : ClientRequest) : Prop :=
  ∃ L, bodyLayout r.apiKey r.apiVersion = some L ∧ Spells L r.body

/-- No answer, or a message that begins with the correlation id. -/
def Answered (r : ClientRequest) : Option Bytes → Prop
  | none => Silent r.apiKey r.apiVersion r.body
  | some message => ¬Silent r.apiKey r.apiVersion r.body ∧
      ∃ fields, message = writeInt32 r.correlationID++fields

/-- The header that the broker reads. -/
def header (r : ClientRequest) : RequestHeader :=
  ⟨toInt32 (putUint 4 r.bytes.length),r.apiKey,r.apiVersion,r.correlationID,
    r.clientID.getD emptyString⟩

end ClientRequest

/-- What the client sends. -/
def stream (reqs : List ClientRequest) : Bytes := frames (reqs.map ClientRequest.bytes)

/-! ## Sockets -/

theorem write_reliable {k : Socket} (hk : k.Reliable) (b : Bytes) :
    ∃ k', k.write b = (none,k') ∧ k'.Reliable ∧ k'.sent = k.sent++b := by
  rcases k with ⟨sent,faults⟩
  cases faults with
  | nil => exact ⟨_,rfl,fun f hf => (List.not_mem_nil hf).elim,rfl⟩
  | cons f faults =>
      obtain ⟨rfl,hf⟩ := List.forall_mem_cons.mp hk
      exact ⟨_,rfl,hf,rfl⟩

theorem writeAll_reliable {k : Socket} (hk : k.Reliable) (writes : List Bytes) :
    ∃ k', Socket.writeAll writes k = (none,k') ∧ k'.Reliable ∧
      k'.sent = k.sent++writes.flatten := by
  induction writes generalizing k with
  | nil => exact ⟨k,rfl,hk,by simp⟩
  | cons b writes ih =>
      obtain ⟨k₁,hw,hk₁,hs₁⟩ := write_reliable hk b
      obtain ⟨k₂,hw₂,hk₂,hs₂⟩ := ih hk₁
      refine ⟨k₂,?_,hk₂,?_⟩
      · simp only [Socket.writeAll,hw,hw₂]
      · rw [hs₂,hs₁,List.flatten_cons,List.append_assoc]

/-! ## One request -/

theorem parseRequestHeader_request (r : ClientRequest) (rest : Bytes) :
    parseRequestHeader (frame r.bytes++rest) = .ok r.header (r.body++rest) := by
  have hsize : readInt32 (putUint 4 r.bytes.length++(r.bytes++rest)) =
      .ok (toInt32 (putUint 4 r.bytes.length)) (r.bytes++rest) :=
    reads_readInt32.1 _ _ (putUint_length 4 _)
  have hb : r.bytes++rest = writeInt16 r.apiKey++(writeInt16 r.apiVersion++
      (writeInt32 r.correlationID++(writeNullableString (r.clientID.map Subtype.val)++
        (r.body++rest)))) := by simp only [ClientRequest.bytes,List.append_assoc]
  rw [frame,List.append_assoc,parseRequestHeader,bind_ok hsize,hb,
    bind_ok (returns_readInt16 _ _),bind_ok (returns_readInt16 _ _),
    bind_ok (returns_readInt32 _ _),bind_ok (returns_nullableString _ _)]
  rfl

/-- The field is found at the same place when more follows the body. -/
theorem acksOf_append {version : Int16} {body : Bytes}
    (h : Spells (produceLayout version) body) (rest : Bytes) :
    acksOf version (body++rest) = acksOf version body := by
  have htake {b : Bytes} (hb : Spells produceBodyLayout b) : (b++rest).take 2 = b.take 2 := by
    obtain ⟨x,y,rfl,hx,-⟩ := hb
    rw [List.append_assoc,List.take_left' hx,List.take_left' hx]
  unfold acksOf
  unfold produceLayout at h
  by_cases hv : version ≥ 3
  · rw [if_pos hv] at h
    obtain ⟨x,y,rfl,hx,hy⟩ := h
    have hcut : Cuts skipString (Headed 2 fun x y => y.length = size16 x) :=
      Cuts.headed fun x => cuts_dropFull (size16 x)
    have hs (t : Bytes) : skipString (x++t) = some t := (hcut _ _).mpr ⟨x,rfl,hx⟩
    rw [if_pos hv,if_pos hv,List.append_assoc,hs,hs,Option.getD_some,Option.getD_some,htake hy]
  · rw [if_neg hv] at h
    rw [if_neg hv,if_neg hv,htake h]

theorem silent_append {r : ClientRequest} (h : r.Encoded) (rest : Bytes) :
    Silent r.apiKey r.apiVersion (r.body++rest) ↔ Silent r.apiKey r.apiVersion r.body := by
  obtain ⟨L,hL,hs⟩ := h
  unfold Silent
  refine and_congr_right fun hk => ?_
  rw [hk] at hL
  obtain rfl : produceLayout r.apiVersion = L := Option.some.inj hL
  rw [acksOf_append hs]

/-- A handler that does not take the process down answers and goes on. -/
theorem served_answer {header : RequestHeader} {α : Type} {parse : Parser α} {work : Work α}
    {L : Layout} {parseText writeText : String} {s rest : Bytes} {st : State}
    (h : Serves header parse work L) (hs : skip L s = some rest) (hk : st.socket.Reliable)
    (hp : served parseText writeText parse work s st ≠ .panic) :
    ∃ st' out, served parseText writeText parse work s st = .next rest st' ∧
      Reply header s out ∧ st'.socket.Reliable ∧
      st'.socket.sent = st.socket.sent++(out.getD []).flatten := by
  rw [← h.spans s] at hs
  obtain ⟨req,hreq⟩ := remaining_eq_some hs
  unfold served at hp ⊢
  simp only [hreq] at hp ⊢
  cases hw : work req st with
  | none => exact absurd (by rw [hw]) hp
  | some r =>
      obtain ⟨out,st₁⟩ := r
      have hr := h.replies s req rest st out st₁ hreq hw
      have hsock := h.socket req st out st₁ hw
      cases out with
      | none => exact ⟨st₁,none,rfl,hr,by rwa [hsock],by simp [hsock]⟩
      | some writes =>
          rw [← hsock] at hk
          obtain ⟨k,hall,hrel,hsent⟩ := writeAll_reliable hk writes
          refine ⟨{st₁ with socket := k},some writes,?_,hr,hrel,?_⟩
          · simp only [hall]
          · rw [hsent,hsock,Option.getD_some]

/-! ## The loop -/

theorem skip_length_le {L : Layout} {s rest : Bytes} (h : skip L s = some rest) :
    rest.length ≤ s.length := by
  obtain ⟨b,rfl,-⟩ := skip_eq_some_iff.mp h
  rw [List.length_append]
  omega

theorem parseRequestHeader_length {s rest : Bytes} {header : RequestHeader}
    (h : parseRequestHeader s = .ok header rest) : rest.length < s.length := by
  have hs := walks_parseRequestHeader.1 s
  rw [h,remaining_ok] at hs
  obtain ⟨b,rfl,x,y,rfl,hx,-⟩ := skip_eq_some_iff.mp hs.symm
  rw [List.length_append,List.length_append,hx]
  omega

/-- Fuel beyond the length of the stream changes nothing. -/
theorem handleLoop_eq {fuel fuel' : ℕ} {s : Bytes} (st : State) (h : s.length < fuel)
    (h' : s.length < fuel') : handleLoop fuel s st = handleLoop fuel' s st := by
  induction fuel generalizing fuel' s st with
  | zero => omega
  | succ fuel ih =>
      obtain ⟨fuel',rfl⟩ := Nat.exists_eq_succ_of_ne_zero (show fuel' ≠ 0 by omega)
      unfold handleLoop
      cases hp : parseRequestHeader s with
      | panic => rfl
      | error e => rfl
      | ok header t =>
          have ht := parseRequestHeader_length hp
          simp only
          cases hd : dispatch header t st with
          | panic => rfl
          | stop e st' => rfl
          | next u st' =>
              obtain ⟨L,-,hs⟩ := dispatch_next hd
              have hu := skip_length_le hs
              exact ih st' (by omega) (by omega)

theorem handle_next {s t u : Bytes} {header : RequestHeader} {st st' : State}
    (hp : parseRequestHeader s = .ok header t) (hd : dispatch header t st = .next u st') :
    handle s st = handle u st' := by
  have ht := parseRequestHeader_length hp
  obtain ⟨L,-,hs⟩ := dispatch_next hd
  have hu := skip_length_le hs
  rw [handle,handleLoop,hp]
  simp only [hd]
  exact handleLoop_eq st' (by omega) (by omega)

theorem handle_panic {s t : Bytes} {header : RequestHeader} {st : State}
    (hp : parseRequestHeader s = .ok header t) (hd : dispatch header t st = .panic) :
    handle s st = .panic := by
  rw [handle,handleLoop,hp]
  simp only [hd]

theorem handle_nil (st : State) : handle [] st = .closed st := rfl

/-- One request is taken off the stream and answered. -/
theorem handle_request {r : ClientRequest} (hr : r.Encoded) (rest : Bytes) {st : State}
    (hk : st.socket.Reliable) (hp : handle (frame r.bytes++rest) st ≠ .panic) :
    ∃ st' message, handle (frame r.bytes++rest) st = handle rest st' ∧ r.Answered message ∧
      st'.socket.Reliable ∧ st'.socket.sent = st.socket.sent++frames message.toList := by
  have hh := parseRequestHeader_request r rest
  obtain ⟨L,hL,hspell⟩ := hr
  rcases handles_dispatch r.header with ⟨hnone,-⟩|⟨α,parse,work,_,_,L',hL',hd,hs⟩
  · exact absurd (hL.symm.trans hnone) (by simp)
  · obtain rfl : L = L' := Option.some.inj (hL.symm.trans hL')
    have hdp : dispatch r.header (r.body++rest) st ≠ .panic :=
      fun hx => hp (handle_panic hh hx)
    rw [hd] at hdp
    obtain ⟨st',out,hnext,hreply,hrel,hsent⟩ :=
      served_answer hs (skip_append hspell rest) hk hdp
    rw [← hd] at hnext
    have hstep := handle_next hh hnext
    cases out with
    | none =>
        exact ⟨st',none,hstep,(silent_append ⟨L,hL,hspell⟩ rest).mp hreply,hrel,hsent⟩
    | some writes =>
        obtain ⟨hloud,fields,hf⟩ := hreply
        refine ⟨st',some (writeInt32 r.correlationID++fields),hstep,
          ⟨fun hx => hloud ((silent_append ⟨L,hL,hspell⟩ rest).mpr hx),fields,rfl⟩,hrel,?_⟩
        rw [hsent,Option.getD_some,hf]
        simp [fullMessage,ClientRequest.header]

/-- Requests in their layouts are answered in order, one framed message each
that begins with the correlation id of the request, and none for a produce
request that asks for none. -/
theorem pipelined_requests_answered (reqs : List ClientRequest) (st : State)
    (hr : ∀ r ∈ reqs, r.Encoded) (hk : st.socket.Reliable)
    (hp : handle (stream reqs) st ≠ .panic) :
    ∃ st' messages, handle (stream reqs) st = .closed st' ∧
      List.Forall₂ ClientRequest.Answered reqs messages ∧
      st'.socket.sent = st.socket.sent++frames (messages.filterMap id) := by
  induction reqs generalizing st with
  | nil => exact ⟨st,[],handle_nil st,.nil,by simp⟩
  | cons r reqs ih =>
      rw [List.forall_mem_cons] at hr
      have hstream : stream (r::reqs) = frame r.bytes++stream reqs := frames_cons _ _
      rw [hstream] at hp ⊢
      obtain ⟨st₁,message,hstep,ha,hk₁,hsent₁⟩ := handle_request hr.1 (stream reqs) hk hp
      rw [hstep] at hp ⊢
      obtain ⟨st₂,messages,hend,has,hsent₂⟩ := ih st₁ hr.2 hk₁ hp
      refine ⟨st₂,message::messages,hend,.cons ha has,?_⟩
      rw [hsent₂,hsent₁,List.append_assoc,← frames_append]
      cases message with
      | none => rfl
      | some m => rfl

/-- A heartbeat of an unnamed group. -/
def heartbeat (correlationID : Int32) : ClientRequest :=
  ⟨12,0,correlationID,none,putUint 2 0++(putUint 4 0++putUint 2 0)⟩

/-- A produce request without topics. -/
def produceNothing (acks : ℕ) (correlationID : Int32) : ClientRequest :=
  ⟨0,2,correlationID,none,putUint 2 acks++(putUint 4 0++putUint 4 0)⟩

/-- The bytes sent over a connection that was closed. -/
def sentOf : Ending → Option Bytes
  | .closed st => some st.socket.sent
  | .panic => none

theorem sentOf_eq_some {e : Ending} {b : Bytes} (h : sentOf e = some b) :
    ∃ st, e = .closed st ∧ st.socket.sent = b := by
  cases e with
  | closed st => exact ⟨st,rfl,Option.some.inj h⟩
  | panic => cases h

theorem pipelined_requests_answered_three :
    ∃ st' messages, handle (stream [heartbeat 1,produceNothing 0 2,heartbeat 3]) idle =
        .closed st' ∧
      List.Forall₂ ClientRequest.Answered [heartbeat 1,produceNothing 0 2,heartbeat 3] messages ∧
      st'.socket.sent = idle.socket.sent++frames (messages.filterMap id) := by
  have hs : sentOf (handle (stream [heartbeat 1,produceNothing 0 2,heartbeat 3]) idle) =
      some ([0,0,0,6,0,0,0,1,0,0]++[0,0,0,6,0,0,0,3,0,0]) := by decide +kernel
  apply pipelined_requests_answered
  · intro r hr
    simp only [List.mem_cons,List.not_mem_nil,or_false] at hr
    rcases hr with rfl|rfl|rfl
    · exact ⟨heartbeatLayout,rfl,by decide +kernel⟩
    · exact ⟨produceLayout 2,rfl,by decide +kernel⟩
    · exact ⟨heartbeatLayout,rfl,by decide +kernel⟩
  · exact fun f hf => (List.not_mem_nil hf).elim
  · intro hx
    rw [hx] at hs
    cases hs

/-- A layout without the limits that a parser puts on its counts. -/
def unbounded : Layout → Layout
  | .done => .done
  | .field width next => .field width (unbounded next)
  | .string next => .string (unbounded next)
  | .blob negative next => .blob negative (unbounded next)
  | .array _ element next => .array maxCount (unbounded element) (unbounded next)

/-- A produce request for 1025 topics without partitions. -/
def manyTopics : ClientRequest :=
  ⟨0,2,5,none,putUint 2 1++(putUint 4 0++(putUint 4 1025++
    (List.replicate 1025 (putUint 2 0++putUint 4 0)).flatten))⟩

/-- The request has the layout of its version, but it and what follows it are
not answered. -/
theorem many_topics_not_answered :
    Spells (unbounded (produceLayout 2)) manyTopics.body ∧ (heartbeat 6).Encoded ∧
      ¬Silent manyTopics.apiKey manyTopics.apiVersion manyTopics.body ∧
      ∃ st', handle (stream [manyTopics,heartbeat 6]) idle = .closed st' ∧
        st'.socket.sent = [] := by
  have htopic : Spells (unbounded produceTopicLayout) (putUint 2 0++putUint 4 0) := by
    decide +kernel
  have hs : sentOf (handle (stream [manyTopics,heartbeat 6]) idle) = some [] := by decide +kernel
  refine ⟨?_,⟨heartbeatLayout,rfl,by decide +kernel⟩,by unfold Silent; decide +kernel,
    sentOf_eq_some hs⟩
  refine ⟨_,_,rfl,putUint_length 2 1,_,_,rfl,putUint_length 4 0,_,[],(List.append_nil _).symm,?_,
    rfl⟩
  refine ⟨_,_,rfl,putUint_length 4 1025,by decide +kernel,List.replicate 1025 _,rfl,?_,?_⟩
  · rw [List.length_replicate]
    decide +kernel
  · intro e he
    rw [List.eq_of_mem_replicate he]
    exact htopic

end Kage.PipelinedRequests
