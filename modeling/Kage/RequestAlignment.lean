import Kage.RequestHandlers

/-!
# Requests and their frames

A client sends its requests in frames, each with its size in front. The parsers
do not use the size: a request ends where its parser stops. The next header is
read at the next frame exactly if the bytes of the frame are those that the
parsers read for the key and the version in its header, no more and no less. A
frame that a later version of the protocol fills with more fields is served, and
what is left of it is taken for the next header.
-/
namespace Kage.RequestAlignment
open ByteStrings LengthPrefixed FaultyDisk StreamParsers WireLayouts BrokerStores
open OffsetRecords OffsetHandlers OffsetStorage RequestParsers RequestHandlers

/-- The bytes behind the size of a frame are a header and the fields that the
handler of its key parses for its version. -/
def Aligned (header : RequestHeader) (b : Bytes) : Prop :=
  ∃ L, bodyLayout header.apiKey header.apiVersion = some L ∧ Spells (headerLayout L) b

theorem skip_headerLayout (L : Layout) (s : Bytes) :
    skip (headerLayout L) s = (skip (headerLayout .done) s).bind (skip L) := by
  simp only [headerLayout,skip,Option.bind_assoc,Option.bind_fun_some]

theorem toInt32_putUint {n : ℕ} (h : n < 2^31) : (toInt32 (putUint 4 n)).toInt = n := by
  rw [toInt32,uint_putUint_of_lt (by omega)]
  exact Int32.toInt_ofNat_of_lt h

theorem parseRequestHeader_size {s rest : Bytes} {header : RequestHeader}
    (h : parseRequestHeader s = .ok header rest) : header.size = toInt32 (s.take 4) := by
  obtain ⟨size,s₁,hs,h⟩ := bind_eq_ok h
  obtain ⟨apiKey,s₂,-,h⟩ := bind_eq_ok h
  obtain ⟨apiVersion,s₃,-,h⟩ := bind_eq_ok h
  obtain ⟨correlationID,s₄,-,h⟩ := bind_eq_ok h
  obtain ⟨clientID,s₅,-,h⟩ := bind_eq_ok h
  cases h
  exact (reads_readInt32.of_ok hs).1

/-- The header is read from behind the size. -/
theorem skip_of_parseRequestHeader {b rest s : Bytes} {header : RequestHeader}
    (h : parseRequestHeader (frame b++rest) = .ok header s) :
    skip (headerLayout .done) (b++rest) = some s := by
  have hs := walks_parseRequestHeader.1 (frame b++rest)
  rw [h,remaining_ok,frame,List.append_assoc] at hs
  have hd : dropFull 4 (putUint 4 b.length++(b++rest)) = some (b++rest) :=
    (cuts_dropFull 4 _ _).mpr ⟨_,rfl,putUint_length 4 _⟩
  rw [hs,skip,hd,Option.bind_some]

/-- A request that was served has consumed exactly its frame if and only if the
frame holds exactly what its parsers read. -/
theorem consumes_frame_iff (b rest s s' : Bytes) (header : RequestHeader) (st st' : State)
    (hb : b.length < 2^31) (hh : parseRequestHeader (frame b++rest) = .ok header s)
    (hd : dispatch header s st = .next s' st') :
    s' = (frame b++rest).drop (4+header.size.toInt.toNat) ↔ Aligned header b := by
  have hsize : header.size.toInt.toNat = b.length := by
    rw [parseRequestHeader_size hh,frame,List.append_assoc,List.take_left' (putUint_length 4 _),
      toInt32_putUint hb,Int.toNat_natCast]
  have hrest : (frame b++rest).drop (4+header.size.toInt.toNat) = rest := by
    rw [hsize,← frame_length,List.drop_left]
  obtain ⟨L,hL,hs⟩ := dispatch_next hd
  have hskip : skip (headerLayout L) (b++rest) = some s' := by
    rw [skip_headerLayout,skip_of_parseRequestHeader hh,Option.bind_some,hs]
  rw [hrest]
  constructor
  · rintro rfl
    exact ⟨L,hL,skip_append_eq_iff.mp hskip⟩
  · rintro ⟨L',hL',hspell⟩
    obtain rfl : L = L' := Option.some.inj (hL.symm.trans hL')
    rw [skip_append hspell rest] at hskip
    exact (Option.some.inj hskip).symm

/-- The fields of a request without its size. -/
def requestBytes (apiKey apiVersion correlationID : ℕ) (body : Bytes) : Bytes :=
  putUint 2 apiKey++(putUint 2 apiVersion++(putUint 4 correlationID++(putUint 2 0++body)))

/-- A heartbeat of an unnamed group. -/
def aHeartbeat : Bytes := requestBytes 12 0 2 (putUint 2 0++(putUint 4 0++putUint 2 0))

/-- A request for the metadata of no topic with the three flags of version 8. -/
def metadataV8 : Bytes := requestBytes 3 8 1 (putUint 4 0++[0,0,0])

/-- The bytes behind a request that was served. -/
def restOf : Result → Option Bytes
  | .next rest _ => some rest
  | .stop _ _ => none
  | .panic => none

theorem restOf_eq_some {r : Result} {s : Bytes} (h : restOf r = some s) :
    ∃ st, r = .next s st := by
  cases r with
  | next rest st =>
      cases h
      exact ⟨st,rfl⟩
  | stop e st => cases h
  | panic => cases h

def heartbeatHeader : RequestHeader := ⟨18,12,0,2,emptyString⟩

def metadataHeader : RequestHeader := ⟨17,3,8,1,emptyString⟩

theorem consumes_frame_heartbeat :
    ∃ s s' st', parseRequestHeader (frame aHeartbeat++frame aHeartbeat) =
        .ok heartbeatHeader s ∧ dispatch heartbeatHeader s idle = .next s' st' ∧
      s' = (frame aHeartbeat++frame aHeartbeat).drop (4+heartbeatHeader.size.toInt.toNat) := by
  have hh : parseRequestHeader (frame aHeartbeat++frame aHeartbeat) =
      .ok heartbeatHeader (aHeartbeat.drop 10++frame aHeartbeat) := by decide +kernel
  have hr : restOf (dispatch heartbeatHeader (aHeartbeat.drop 10++frame aHeartbeat) idle) =
      some (frame aHeartbeat) := by decide +kernel
  obtain ⟨st',hd⟩ := restOf_eq_some hr
  refine ⟨_,_,st',hh,hd,?_⟩
  exact (consumes_frame_iff aHeartbeat (frame aHeartbeat) _ _ heartbeatHeader idle st'
    (by decide +kernel) hh hd).mpr ⟨heartbeatLayout,rfl,by decide +kernel⟩

/-- A version that the broker offers for metadata has two flags more than its
parser reads. They are taken for the front of the next size, and the heartbeat
in the next frame is read as a request for the supported versions. -/
theorem metadata_v8_shifts_next_request :
    ∃ s st', parseRequestHeader (frame metadataV8++frame aHeartbeat) = .ok metadataHeader s ∧
      dispatch metadataHeader s idle = .next (0::0::frame aHeartbeat) st' ∧
      0::0::frame aHeartbeat ≠
        (frame metadataV8++frame aHeartbeat).drop (4+metadataHeader.size.toInt.toNat) ∧
      (∃ t, parseRequestHeader (frame aHeartbeat) = .ok heartbeatHeader t) ∧
      ∃ header t, parseRequestHeader (0::0::frame aHeartbeat) = .ok header t ∧
        header.apiKey = ApiKeyApiVersions := by
  have hh : parseRequestHeader (frame metadataV8++frame aHeartbeat) =
      .ok metadataHeader (metadataV8.drop 10++frame aHeartbeat) := by decide +kernel
  have hr : restOf (dispatch metadataHeader (metadataV8.drop 10++frame aHeartbeat) idle) =
      some (0::0::frame aHeartbeat) := by decide +kernel
  obtain ⟨st',hd⟩ := restOf_eq_some hr
  have hn : parseRequestHeader (0::0::frame aHeartbeat) =
      .ok ⟨0,18,12,0,⟨[0,0],by decide⟩⟩ (0::0::List.replicate 6 0) := by decide +kernel
  exact ⟨_,st',hh,hd,by decide +kernel,⟨aHeartbeat.drop 10,by decide +kernel⟩,_,_,hn,rfl⟩

end Kage.RequestAlignment
