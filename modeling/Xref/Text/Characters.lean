/-!
# Characters

The characters of which blanks, numbers, names and words of the indexed language consist, and those
that quoted text shows as they are. Every script counts, so that beyond ASCII each kind has a table
of code points.
-/

namespace Xref.Text

/-! ## Tables -/

/-- Whether a code point lies in one of the ranges, each given by its first code point and their
number. -/
def inRanges (table : List (Nat × Nat)) (n : Nat) : Bool :=
  table.any fun r => r.1 ≤ n && n < r.1 + r.2

theorem inRanges_eq_true_iff (table : List (Nat × Nat)) (n : Nat) :
    inRanges table n = true ↔ ∃ r ∈ table, r.1 ≤ n ∧ n < r.1 + r.2 := by
  simp [inRanges]

/-- The numbers that letters stand for as the digits of base 26. The last digit of each is a
capital. -/
def numbersOf (n : Nat) : List Char → List Nat
  | [] => []
  | c :: cs =>
    if c.isUpper then (26 * n + (c.toNat - 'A'.toNat)) :: numbersOf 0 cs
    else numbersOf (26 * n + (c.toNat - 'a'.toNat)) cs

/-- The ranges of a table that tells in turn how many code points are left out and how many belong
to it. -/
def rangesFrom (start : Nat) : List Nat → List (Nat × Nat)
  | gap :: count :: rest => (start + gap, count) :: rangesFrom (start + gap + count) rest
  | _ => []

/-- The ranges of a long table, whose numbers are written in letters. -/
def ranges (lines : List String) : List (Nat × Nat) :=
  rangesFrom 0 (numbersOf 0 (lines.flatMap String.toList))

/-! ## Blanks -/

/-- Code points that count as white space. -/
def blankRanges : List (Nat × Nat) :=
  [(0x9, 5), (0x1C, 5), (0x85, 1), (0xA0, 1), (0x1680, 1), (0x2000, 11), (0x2028, 2), (0x202F, 1),
   (0x205F, 1), (0x3000, 1)]

def isBlank (c : Char) : Bool :=
  inRanges blankRanges c.toNat

/-- The characters from the first to the last that `p` does not hold of. -/
def stripWhile (p : Char → Bool) (cs : List Char) : List Char :=
  ((cs.dropWhile p).reverse.dropWhile p).reverse

/-- The text without blanks at its ends. -/
def strip (cs : List Char) : List Char :=
  stripWhile isBlank cs

/-- The text without quote marks at its ends. -/
def stripQuotes (cs : List Char) : List Char :=
  stripWhile (fun c => c == '\x27' || c == '\x22') cs

/-! ## Decimal digits -/

/-- The zeros of all scripts; the other nine digits follow each. -/
def zeros : List Nat :=
  [0x30, 0x660, 0x6F0, 0x7C0, 0x966, 0x9E6, 0xA66, 0xAE6, 0xB66, 0xBE6, 0xC66, 0xCE6, 0xD66, 0xDE6,
   0xE50, 0xED0, 0xF20, 0x1040, 0x1090, 0x17E0, 0x1810, 0x1946, 0x19D0, 0x1A80, 0x1A90, 0x1B50,
   0x1BB0, 0x1C40, 0x1C50, 0xA620, 0xA8D0, 0xA900, 0xA9D0, 0xA9F0, 0xAA50, 0xABF0, 0xFF10, 0x104A0,
   0x10D30, 0x11066, 0x110F0, 0x11136, 0x111D0, 0x112F0, 0x11450, 0x114D0, 0x11650, 0x116C0,
   0x11730, 0x118E0, 0x11950, 0x11C50, 0x11D50, 0x11DA0, 0x16A60, 0x16AC0, 0x16B50, 0x1D7CE,
   0x1D7D8, 0x1D7E2, 0x1D7EC, 0x1D7F6, 0x1E140, 0x1E2F0, 0x1E950, 0x1FBF0]

def digitValue? (c : Char) : Option Nat :=
  (zeros.find? fun z => z ≤ c.toNat && c.toNat < z + 10).map fun z => c.toNat - z

/-! ## Identifiers -/

set_option maxRecDepth 4000

/-- Characters beyond ASCII with which an identifier may start. -/
def startRanges : List (Nat × Nat) := ranges
  ["gOBKBEBFXBbFBrQEMOFHBBBeZFBCDDBBGBBDBBBUBdFBfJIgKBbMCBGbPcTbBEEbTbRbJCBdVBBPCHCKDCBQBBbEbDdL",
   "LBYbHJCEBFWEBJBDBXZHLFYBGRbQcGcCDBSBHKPQEICCCWBHBBDEDBQBNCBDOCKBIGECCWBHBCBCBCbFEBBTDQJBDBW",
   "BHBCBFDBSBPCXBLICCCWBHBCBFDBbECBDPBRBBGDDBEDCBBBCDCDDDMWBcAIBDBXBQDBbADCBCCbEBEIBDBXBKBFDB",
   "bFCBCPCRJBDBbPCBQBFDIDYGFSDYBJBBCHcGbWBBNHcGCBBBFBYBBBKBBKBCFBBVEbGBcLIBbKbBFeLbRUBQGEEDBDC",
   "HDENMBRbMBBFBCbRBmVBECHBBBECbPBECbHBECHBBBECPBcFBECcPbLQQdICGDxWCRBbAFcXDLHSNTOSONBDPcAbJBEB",
   "cPdLHbPBBFcSKbFbXbECFLbSEbAcCXJcBdEBdPbVRIcCbENCKbSbAbKbPDKbKCJHbRCDbPEBGBCDBFhKcMkSCGCbMCG",
   "CIBBBBBBBbFCcBBHBBDDBHDECGENFDBHeMBNBQNdXBEBCKBBCGGBBBBBBQCEFFEBRbPdzBiVGEDCMbMBBFBCcEHBQXJH",
   "BHBHBHBHBHBHBHvEDZJHFCFEdIGDBdMBEFbRBdQRbGbWQtSjtOcMbguFcPbUCkJDQKCUbVQbFCdCbNJCdZCcMFCBBBF",
   "YQBDBEBXbDcAObYcKGDBBCLbCKXZbDHbVbCBQFBKKFBbPXDBIUXDBDbYBBDCCFCBBBYDCLHDMGCGCGJHBHBbRBOGeL",
   "bDqnSMXEbXmnCoCCeCbMHMFFBBKBNBFBBBCBCBeEbHfJGiKScMCcCbOKePBBBDBBBBBBBBeWbKbAGbALcECbFDGCGCG",
   "CDbJMBbABTBCBPCObIeTcRcBkHbDDbXbVbGNbEFbMKbECbKEIBFbQgCSbKEbKEbOIcAMLBPBHBCBLBPBHBCcPlZJWKI",
   "YGBbQBJcRGCBBbSBCDBCXKXJbFcNTBCKWKbAcScEGCcMBPEBDBbDbQbDDbDbJIBbCbBcCKWKTNSeGcVcDbZNbZNbK",
   "nKbQGCdAbDKBIWbQSbUVbBXMcBcFCCBNbTbGZbAbKbDBCBIbJDBMbWOEVBBBbJSBZdGHBBBEBPBKHbVbMICCCWBHBCBF",
   "DBSBMFgCcBSEUDbEbWUCBBhCbVbPEbKbWUBcHbRNBcTbBbLHhDbSeMcMbFICBCIBCBYPBBBdQICbNQBBBbCBKbOHBVB",
   "LbUTBScVkDJBbLRBbXbEeIHBCBbMVBZGBCBbGOBmPThHBdBbjMdYeHRhOdxKdTPbpFfzTwLmuBvXHbFRdBRbESbWQE",
   "bFVFTbaMcMeYcXFBcONcMCBBbCjcAIbvQbQJnfREBHBCBlFbTDREIpGdkUeDFNDJHKiwKdHBcTBCCBCCCEBMBBBHBcN",
   "BECIBHBbCBEBFBBDHBnCCZBZBbFBZBbFBZBbFBZBbFBZBIcsYbFsNbTKHQBmJbESbSbwUHBEBCBPBhPcHcQHBbuIEBbB",
   "BCBBCBBKBEBBBBGBEBBBBBBDBCBBCBBBBBBBBBBCBBCEBHBEBEBBBKBRFDBFBRgoAclfCbGgdTHiOCinQOlbLepJuW",
   "cfYhhZ"]

def startsIdentifier (c : Char) : Bool :=
  if c.toNat < 128 then c.isAlpha || c == '_' else inRanges startRanges c.toNat

/-- Identifier parts beyond ASCII with which no identifier starts, in ranges of identifier parts. -/
def continueRanges : List (Nat × Nat) := ranges
  ["hBBwMeIXBjRFkFbTBBBCBCBBcULbWbFGBdXHCKBQXcGdNLPcAJBYYbRDcIcWBeZCKRDcEJCCCDJBKCCKOBCDcEBBFEC",
   "CDDBUQLDcEKBDBDUCCKKGBDcEJCCCDHDKCCKSBcHFDDBEJBOKQFcDJBDBEHCLCCKRDcEJBDBEHCLCCKQEcDKBDBEJBKC",
   "CKRDcSBEGBBBIGKCCcJKMIBKdJMLGCKcKCGKLBBBBBECbXUBSBbKJBdWbFMcUbbBDJJbjSEbCDbDCbECcMbGJBCKbHD",
   "BLfNBeOMEMKKeYLcIFcFKBbDCLGKWOBQbXcRLKRJMeMbWUIKGKeODBbMhQcMwDCTBeTNEBDMeoCDfLBdSbGvIGeBC",
   "bsnDKcRBEKbGdGkMbMEBdFcSKKGSNbVZNbScNPKLVbVOMLCKbHcTbPFFCjCIBCCKbdzGBbcJQQQDCYDhKKbLBdQCxHB",
   "iSBfTFlHKcaPDBCFEbODEBgJCwBEIKoFCfXLbXEeScTbFPKcIHBbTKGcBBKFCbSBMcNIEBMdEMGBgEMFKGEcDKCCCDJB",
   "KCCHDFhKSJKEBdDUMKiFHCJbBCdERPKdDNIKdFPEKjIPgJKcSGBCCJMKePHCHDBbCcKIBJcVpPIBIQKcEWBOeSGDBBC",
   "BJIKbWFBCBFIKmREbcoNKdIKbMFcHHZKbmZcFHEdDBLCbdaXCgyZbUCXuWFDGIICHbEEfSDccNbYtScDEbYIBOBWFBP",
   "caIHBRCHBCBFkBHJKnSBcJOcfMHeFHFKhbAKbsvgWjG"]

/-- A character that may stand after the first of an identifier. -/
def continuesIdentifier (c : Char) : Bool :=
  if c.toNat < 128 then c.isAlphanum || c == '_'
  else startsIdentifier c || inRanges continueRanges c.toNat

/-! ## Words -/

/-- Signs with which an identifier may start, although they are no letters. -/
def signRanges : List (Nat × Nat) :=
  [(0x1885, 2), (0x2118, 1), (0x212E, 1)]

/-- Letters and numbers beyond ASCII with which no identifier starts, in ranges of letters and
numbers. -/
def numberRanges : List (Nat × Nat) := ranges
  ["gWCFBCDbaXBbcNKfEKhQKpWKeOKEGeEKeOKeOKCGeGNeLKIHdZKeAHHTeFKcPBbCKdLBbCKcSUkIKcSKbbRUbrFKGKWK",
   "lOKeYLgJKGKhAKdIKfEKGKboGBDGGKhQcGbbYcIdAWyGbEcbHBlTBbhIEfIKbEIBPbGKbNPbrsAKtYGfYKbMKhQKWK",
   "dIKpQKbelOGpQCeMFBJfPKfCCnVbTcNERCnDbBbKEoQKbkGIZHbNJcXbHgEUCbUcMJcACbEDcXFeAIYIbPHmSGbWK",
   "lIbFgCKbQEeIHfEbEeYKcIKfOKHUjRKnEKeOKoKKdYKdYMqETdPKbdEbDiTKcSKuOVbcfZKdIKfEKBHbeSXblzLUeEZ",
   "bqRbYdnCKqGKcfDJeYKbeLcHBDBEcYbTBPblANedFK"]

/-- A letter, a number or an underscore. -/
def isWord (c : Char) : Bool :=
  if c.toNat < 128 then c.isAlphanum || c == '_'
  else startsIdentifier c && !inRanges signRanges c.toNat || inRanges numberRanges c.toNat

/-- An ASCII letter or an underscore, with which a plain name starts. -/
def startsName (c : Char) : Bool :=
  c.isAlpha || c == '_'

/-- A plain name: an ASCII letter or underscore, then word characters. -/
def isName : List Char → Bool
  | [] => false
  | c :: cs => startsName c && cs.all isWord

/-- A plain name that may also hold dots after its first character, in any number. -/
def isLooseDotted : List Char → Bool
  | [] => false
  | c :: cs => startsName c && cs.all fun d => isWord d || d == '.'

/-! ## Printable characters -/

/-- Printable characters beyond ASCII of which neither identifiers nor words consist, in ranges of
printable characters. Separators, controls, formats, private and unassigned code points are left
out. -/
def symbolRanges : List (Nat × Nat) := ranges
  ["gFMBbbKIBFCeIfSiAbXCDbUJbSCRWBhCJbWiYEECbWPbFBbPBiLNeZMeQBeRCeWBfAIeUOhUBbPBeSBcWbDgJcJcTB",
   "cEPBNeHdIdNBxOJbNKdYxZbSCdADcTCgBIbKLlXBDCfWbIbECeYOQBfZbLeVEcHFcKCcMILBbcRFLDNTNCRYIbVbBV",
   "RbHbCIbBfKEzNZLdDcpKCbGBnCOHeIBfNdQbIbABdLMiGbAMFcLdNdTfSdGbCbFLkoCbguIcDcDkOdSfGIfJgBEKEcGE",
   "dICbOcEbVBdTNQCeUbEdWUeBReXBbeaFBfGRoPSeXBbSbEWbJBTBEfTdXeSHBHNCjYDcAdKBNDBbVbTqCBbWBpYB",
   "bcPbIgKBbFBkMJbMBcUBbNHcOHdLEbeEBgLFbSEhHHeFCBEeWEbWCdBbBdKGeDBqBRBBeABjQXeBDbCNcYBfAEjRBkED",
   "fZBdOIdFJpYFbQCyVCiMbDNBbrSFejCCwdVCfDBcNPbgREmPBbdbLEhcAeMcIjMKbNCcQWeAVcShEdJbhQjZcIzCcoPB",
   "qPBckSCbgMFeVBrHCkKbSEdWMPCPBPBbLXgFcEbDNbSEJHCOGfYblWFQDNDeMMdLHMEBPMEcEIKGbOIbECCdAnCMOCF",
   "DFDHJbDDLFGKKGIIHJfRBcD"]

/-- A character that quoted text shows as it is. -/
def isPrintable (c : Char) : Bool :=
  if c.toNat < 128 then 32 ≤ c.toNat && c.toNat < 127
  else continuesIdentifier c || isWord c || inRanges symbolRanges c.toNat

end Xref.Text
