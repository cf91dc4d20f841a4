import EventSchema.Digest.Sha256

/-!
# Fingerprints of files

The fingerprint of a list of files is the digest of all paths and contents, each followed by a zero
byte.
-/

namespace EventSchema

namespace Digest

/-- The bytes that stand for one file. -/
def frame (file : List UInt8 × List UInt8) : List UInt8 := file.1 ++ 0 :: (file.2 ++ [0])

/-- The bytes that stand for some files, given by path and contents. -/
def stream (files : List (List UInt8 × List UInt8)) : List UInt8 := files.flatMap frame

/-- The fingerprint of some files. -/
def fingerprint (files : List (List UInt8 × List UInt8)) : String := checksum (stream files)

end Digest

end EventSchema
