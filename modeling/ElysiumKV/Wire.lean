import ElysiumKV.Lib.Codec
import ElysiumKV.Version

/-!
# Wire primitives and block framing

Integers, strings, CRC-32C and block framing. Compression libraries are parameters with the law that
decompression inverts compression.
-/

namespace ElysiumKV

open Codec List

/-! ### Integers and strings -/

/-- `put_fixed32`. -/
def putFixed32 (value : ℕ) : Bytes := putFixed 4 value

/-- `put_fixed64`. -/
def putFixed64 (value : ℕ) : Bytes := putFixed 8 value

/-- `put_varint32`: at most five bytes. -/
def putVarint32 (value : ℕ) : Bytes := putVarint 5 value

/-- `put_varint64`: at most ten bytes. -/
def putVarint64 (value : ℕ) : Bytes := putVarint 10 value

/-- `get_varint32`. -/
def getVarint32 : Parser ℕ := getVarint 32 5

/-- `get_varint64`. -/
def getVarint64 : Parser ℕ := getVarint 64 10

theorem reads_varint32 {v : ℕ} (h : v < 2 ^ 32) : Reads getVarint32 (putVarint32 v) v :=
  reads_getVarint h (by decide) (by decide)

theorem reads_varint64 {v : ℕ} (h : v < 2 ^ 64) : Reads getVarint64 (putVarint64 v) v :=
  reads_getVarint h (by decide) (by decide)

theorem one_le_length_putVarint64 (v : ℕ) : 1 ≤ (putVarint64 v).length :=
  one_le_length_putVarint (by decide) v

/-- `put_string`. -/
def putString (value : Bytes) : Bytes := putVarint64 value.length ++ value

/-- `get_string`. -/
def getString : Parser Bytes := do
  let size ← getVarint64
  takeBytes size

theorem reads_string {s : Bytes} (h : s.length < 2 ^ 64) : Reads getString (putString s) s :=
  (reads_varint64 h).bind (reads_takeBytes s)

/-! ### CRC-32C -/

/-- `kPolynomial`, reversed Castagnoli. -/
def crcPolynomial : UInt32 := 0x82F63B78

/-- One bit of `make_table`. -/
def crcBit (crc : UInt32) : UInt32 :=
  if crc &&& 1 ≠ 0 then (crc >>> 1) ^^^ crcPolynomial else crc >>> 1

/-- An entry of the table: eight bits of the index. -/
def crcEntry (i : UInt32) : UInt32 :=
  crcBit (crcBit (crcBit (crcBit (crcBit (crcBit (crcBit (crcBit i)))))))

/-- `crc32c`. -/
def crc32c (data : Bytes) : UInt32 :=
  (data.foldl (fun crc byte => crcEntry ((crc ^^^ byte.toUInt32) &&& 0xFF) ^^^ (crc >>> 8))
    0xFFFFFFFF) ^^^ 0xFFFFFFFF

/-! ### Block framing -/

/-- What it compresses it decompresses, into a buffer of the right size. -/
structure Compressor where
  compress : Bytes → Option Bytes
  /-- the bytes produced into a buffer of the given capacity; `none` is an error of the library -/
  decompress : ℕ → Bytes → Option Bytes
  inverse : ∀ content packed, compress content = some packed →
    decompress content.length packed = some content

/-- It leaves the bytes as they are. -/
def verbatim : Compressor where
  compress := some
  decompress _ packed := some packed
  inverse content packed h := by rw [Option.some.inj h]

/-- The two libraries. -/
structure Compressors where
  lz4 : Compressor
  zstd : Compressor

variable (codecs : Compressors)

/-- The library of a codec. -/
def Compressors.find : Compression → Option Compressor
  | .none => none
  | .lz4 => some codecs.lz4
  | .zstd => some codecs.zstd

/-- The byte of a codec. -/
def Compression.toByte : Compression → UInt8
  | .none => 0
  | .lz4 => 1
  | .zstd => 2

/-- `is_known_compression` and the cast. -/
def Compression.ofByte (raw : UInt8) : Option Compression :=
  if raw = 0 then some .none else if raw = 1 then some .lz4 else if raw = 2 then some .zstd
  else none

@[simp] theorem Compression.ofByte_toByte (c : Compression) :
    Compression.ofByte c.toByte = some c := by
  cases c <;> rfl

/-- `kBlockTrailerLength` -/
def blockTrailerLength : ℕ := 9

/-- Payload and codec; what does not shrink is raw. -/
def packBlock (content : Bytes) (codec : Compression) : Except Status (Bytes × Compression) :=
  match codecs.find codec with
  | none => .ok (content, .none)
  | some library => match library.compress content with
    | none => .error .io
    | some packed =>
      if content.length ≤ packed.length then .ok (content, .none) else .ok (packed, codec)

/-- `frame_block`. -/
def frameBlock (content : Bytes) (codec : Compression) : Except Status Bytes :=
  if 2 ^ 32 - 1 < content.length then .error .io
  else match packBlock codecs content codec with
    | .error status => .error status
    | .ok (payload, stored) =>
      let covered := payload ++ (putFixed32 content.length ++ [stored.toByte])
      .ok (covered ++ putFixed32 (crc32c covered).toNat)

/-- The content of a payload stored under a codec. -/
def unpackBlock (codec : Compression) (uncompressedLen : ℕ)
    (payload : Bytes) : Except Status Bytes :=
  match codecs.find codec with
  | none => if payload.length ≠ uncompressedLen then .error .corrupt else .ok payload
  | some library => match library.decompress uncompressedLen payload with
    | none => .error .corrupt
    | some produced =>
      if produced.length ≠ uncompressedLen then .error .corrupt else .ok produced

/-- `unframe_block`. -/
def unframeBlock (raw : Bytes) (maxUncompressed : ℕ) : Except Status Bytes :=
  if raw.length < blockTrailerLength then .error .corrupt
  else
    let covered := raw.take (raw.length - 4)
    if (crc32c covered).toNat ≠ decodeFixed (raw.drop (raw.length - 4)) then .error .corrupt
    else match Compression.ofByte ((covered.drop (covered.length - 1)).headD 0) with
      | none => .error .corrupt
      | some codec =>
        let uncompressedLen := decodeFixed ((covered.drop (covered.length - 5)).take 4)
        if maxUncompressed < uncompressedLen then .error .corrupt
        else unpackBlock codecs codec uncompressedLen
          (raw.take (raw.length - blockTrailerLength))

theorem unpackBlock_packBlock {codecs : Compressors} {content payload : Bytes}
    {codec stored : Compression} (h : packBlock codecs content codec = .ok (payload, stored)) :
    unpackBlock codecs stored content.length payload = .ok content := by
  unfold packBlock at h
  cases hfind : codecs.find codec with
  | none =>
    rw [hfind] at h
    obtain ⟨rfl, rfl⟩ := Prod.mk.inj (Except.ok.inj h)
    simp [unpackBlock, Compressors.find]
  | some library =>
    simp only [hfind] at h
    cases hpack : library.compress content with
    | none => simp [hpack] at h
    | some packed =>
      simp only [hpack] at h
      split_ifs at h
      · obtain ⟨rfl, rfl⟩ := Prod.mk.inj (Except.ok.inj h)
        simp [unpackBlock, Compressors.find]
      · obtain ⟨rfl, rfl⟩ := Prod.mk.inj (Except.ok.inj h)
        simp [unpackBlock, hfind, library.inverse _ _ hpack]

theorem unframeBlock_frameBlock {codecs : Compressors} {content framed : Bytes}
    {codec : Compression} {maxUncompressed : ℕ}
    (h : frameBlock codecs content codec = .ok framed) (hmax : content.length ≤ maxUncompressed) :
    unframeBlock codecs framed maxUncompressed = .ok content := by
  unfold frameBlock at h
  split_ifs at h with hlen
  cases hpack : packBlock codecs content codec with
  | error status => simp [hpack] at h
  | ok packed =>
    obtain ⟨payload, stored⟩ := packed
    simp only [hpack, Except.ok.injEq] at h
    set covered := payload ++ (putFixed32 content.length ++ [stored.toByte]) with hcovered
    have hlength : framed.length = covered.length + 4 := by simp [← h, putFixed32]
    have hcoveredLength : covered.length = payload.length + 5 := by simp [hcovered, putFixed32]
    have htake : framed.take (framed.length - 4) = covered := by
      rw [hlength, Nat.add_sub_cancel, ← h, take_left]
    have hdrop : framed.drop (framed.length - 4) = putFixed32 (crc32c covered).toNat := by
      rw [hlength, Nat.add_sub_cancel, ← h, drop_left]
    have hcrc : decodeFixed (putFixed32 (crc32c covered).toNat) = (crc32c covered).toNat :=
      decodeFixed_putFixed_of_lt (UInt32.toNat_lt _)
    have hbyte : covered.drop (covered.length - 1) = [stored.toByte] := by
      rw [hcoveredLength, hcovered, ← append_assoc]
      have : payload.length + 5 - 1 = (payload ++ putFixed32 content.length).length := by
        simp [putFixed32]
      rw [this, drop_left]
    have hsize : (covered.drop (covered.length - 5)).take 4 = putFixed32 content.length := by
      rw [hcoveredLength, hcovered, Nat.add_sub_cancel, drop_left]
      have : 4 = (putFixed32 content.length).length := by simp [putFixed32]
      rw [this, take_left]
    have hsizeValue : decodeFixed (putFixed32 content.length) = content.length :=
      decodeFixed_putFixed_of_lt (by omega)
    have hpayload : framed.take (framed.length - blockTrailerLength) = payload := by
      have hidx : framed.length - blockTrailerLength = payload.length := by
        rw [hlength, hcoveredLength, blockTrailerLength]
        omega
      rw [hidx, ← h, hcovered, append_assoc, take_left]
    unfold unframeBlock
    rw [if_neg (by rw [hlength, hcoveredLength, blockTrailerLength]; omega)]
    simp only [htake, hdrop, hcrc, hbyte, hsize, hsizeValue, hpayload, headD_cons,
      Compression.ofByte_toByte, ne_eq, not_true, if_false]
    rw [if_neg (by omega)]
    exact unpackBlock_packBlock hpack

end ElysiumKV
