import SaleRules.Codec.Schema

/-!
# Blobs

A config in a file stands behind a frame of eleven bytes: seven that name the format, the format's
version, and the version of the instruction layout. The frame is read front to back and each part
is compared before the next is read.
-/
namespace SaleRules

/-- Why a blob is no config. -/
inductive BlobError where
  | truncated
  | badMagic
  | unsupportedVersion
  | unsupportedLayout
  | trailingBytes
  | content (cause : ReadError)
  deriving DecidableEq, Repr

def BlobError.reason : BlobError → String
  | .truncated => "truncated"
  | .badMagic => "bad magic"
  | .unsupportedVersion => "unsupported version"
  | .unsupportedLayout => "unsupported instruction layout"
  | .trailingBytes => "trailing bytes"
  | .content cause => cause.message

def BlobError.message (e : BlobError) : String := "decoding error: " ++ e.reason

namespace Blob

/-- The letters `SALE_SC`. -/
def magic : Bytes := [0x53, 0x41, 0x4C, 0x45, 0x5F, 0x53, 0x43]

def version : Bytes := [1, 0, 0]

def layout : Bytes := [Layout.current.version]

def frame : Bytes := magic ++ version ++ layout

def ofConfig (c : StateConfig) : Bytes := frame ++ Schema.config.encode c

/-- The input behind the wanted bytes. -/
def expect (wanted : Bytes) (otherwise : BlobError) (input : Bytes) : Except BlobError Bytes :=
  match Reader.take wanted.length input with
  | (.ok found, rest) => if found.val = wanted then .ok rest else .error otherwise
  | (.error cause, _) => .error (.content cause)

/-- The config that fills the input. -/
def readConfig (input : Bytes) : Except BlobError StateConfig :=
  match Schema.config.reader input with
  | (.ok c, []) => .ok c
  | (.ok _, _ :: _) => .error .trailingBytes
  | (.error cause, _) => .error (.content cause)

def toConfig (blob : Bytes) : Except BlobError StateConfig :=
  if blob.length < magic.length then .error .truncated
  else
    (expect magic .badMagic blob).bind fun rest =>
    (expect version .unsupportedVersion rest).bind fun rest =>
    (expect layout .unsupportedLayout rest).bind readConfig

theorem expect_append (wanted : Bytes) (otherwise : BlobError) (rest : Bytes) :
    expect wanted otherwise (wanted ++ rest) = .ok rest := by
  have h := Reader.take_append ⟨wanted, rfl⟩ rest
  simp only [expect, h, if_true]

/-- Behind the frame stands the config alone. -/
theorem toConfig_frame (rest : Bytes) : toConfig (frame ++ rest) = readConfig rest := by
  have hlen : ¬ (frame ++ rest).length < magic.length := by simp [frame, magic, version, layout]
  rw [toConfig, if_neg hlen, frame, List.append_assoc, List.append_assoc, expect_append]
  simp only [Except.bind, expect_append]

end Blob

end SaleRules
