import Pcode.Convert
import Pcode.Proofs.Container
import Pcode.Proofs.Files
import Pcode.Zlib.Store

set_option autoImplicit false

/-! # From a file to the source in it

Main statements: a container is read exactly from a file that holds one
(`readContainer_eq_ok_iff`); and a file written for a listing leads, stage by stage, back to
the listing (`sealed_file_reads_back`). -/

namespace Pcode.Convert

/-- A container is read where a file with a complete header can be read. -/
theorem readContainer_eq_ok_iff {fs : Files} {path : String} {c : Container} :
    readContainer fs path = .ok c ↔
      ∃ bytes, fs.read (Path.ofString path).toString = .ok bytes ∧
        Container.ofBytes? bytes = some c := by
  constructor
  · intro h
    unfold readContainer at h
    dsimp only at h
    split at h
    · cases h
    · cases h
    · split at h
      · cases h
      · next bytes hread =>
          split at h
          · next d hd => cases h; exact ⟨bytes, hread, hd⟩
          · cases h
  · rintro ⟨bytes, hread, hc⟩
    unfold readContainer
    simp only [Files.exists?_of_read hread, hread, hc]

/-- **A file written for a listing reads back.** The parts of the header that are not used may
hold anything, and the compressed payload may be any bytes that the decompression takes back to
the payload; of the size in the header it is only asked that the payload has as many bytes. -/
theorem sealed_file_reads_back (inflate : Inflate) (l : Listing) (fs : Files) (path : String)
    (version unused : List UInt8) (key plainSize : Nat) (z : List UInt8)
    (hversion : version.length = 6) (hunused : unused.length = 8) (hkey : key < 2 ^ 32)
    (hz : z ≠ [])
    (hlength : z.length < 2 ^ 32) (hinflate : inflate z = some l.payload) (hpos : 0 < plainSize)
    (hplain : plainSize ≤ l.payload.length) (hfield : plainSize < 2 ^ 32)
    (hfile : fs.read (Path.ofString path).toString =
      .ok ((Container.sealing key plainSize z).toBytesWith version unused)) :
    readContainer fs path = .ok (Container.sealing key plainSize z) ∧
      (Container.sealing key plainSize z).isValid = true ∧
      (Container.sealing key plainSize z).program? inflate =
        some ⟨l.groups.map List.length, l.payload.drop Program.sizesLength⟩ ∧
      Program.source ⟨l.groups.map List.length, l.payload.drop Program.sizesLength⟩ =
        .ok l.text := by
  have hheader :
      Container.ofBytes? ((Container.sealing key plainSize z).toBytesWith version unused) =
        some (Container.sealing key plainSize z) :=
    Container.ofBytes?_toBytesWith hversion hunused rfl hkey hlength hfield
  have hprogram : Program.ofBytes l.payload =
      ⟨l.groups.map List.length, l.payload.drop Program.sizesLength⟩ := by
    have hsizes : (Program.ofBytes l.payload).sizes = l.sizes := by
      rw [Program.ofBytes_payload]
    exact congrArg (Program.mk · _) hsizes
  rw [← hprogram]
  refine ⟨?_, ?_, ?_, ?_⟩
  · exact readContainer_eq_ok_iff.2 ⟨_, hfile, hheader⟩
  · exact Container.isValid_sealing hz hpos
  · exact Container.program?_sealing hinflate hplain
  · exact Program.source_program l

/-- A listing with a name that takes two bytes, an empty name, and a name in front of a
keyword. -/
def sampleListing : Listing where
  groups := [["é".toList, []], [], ["x1".toList], [], [], [], []]
  items := [.name 0, .token 3, .name 2, .name 1, .token 95, .name 2, .token 100]
  groups_length := rfl
  size_lt := by decide +kernel
  zero_not_mem := by decide +kernel
  fits := by decide +kernel

/-- What stands in the unused part of the header of the sample. -/
def sampleUnused : List UInt8 := [0xB9, 0x16, 0x3F, 0xB1, 0, 0, 0x0B, 0xE4]

/-- A folder with one file: the sample listing, stored without compression and scrambled. -/
def sampleFiles : Files where
  nodes := [(["a.p"],
    .file ((Container.sealing 0x12345 46 (Zlib.store sampleListing.payload)).toBytesWith
      Container.version sampleUnused))]

theorem sealed_file_reads_back_sample :
    readContainer sampleFiles "a.p" =
        .ok (Container.sealing 0x12345 46 (Zlib.store sampleListing.payload)) ∧
      (Container.sealing 0x12345 46 (Zlib.store sampleListing.payload)).isValid = true ∧
      (Container.sealing 0x12345 46 (Zlib.store sampleListing.payload)).program? Zlib.inflate =
        some ⟨[2, 0, 1, 0, 0, 0, 0], sampleListing.payload.drop 28⟩ ∧
      Program.source ⟨[2, 0, 1, 0, 0, 0, 0], sampleListing.payload.drop 28⟩ =
        .ok "é if x1 =x1\n".toList := by
  have htext : sampleListing.text = "é if x1 =x1\n".toList := by decide +kernel
  obtain ⟨hread, hvalid, hprogram, hsource⟩ :=
    sealed_file_reads_back Zlib.inflate sampleListing sampleFiles "a.p" Container.version
      sampleUnused 0x12345 46 (Zlib.store sampleListing.payload) (by decide) (by decide) (by decide)
      (by decide +kernel) (by decide +kernel)
      (by decide +kernel) (by decide) (by decide +kernel) (by decide) (by rfl)
  exact ⟨hread, hvalid, hprogram, hsource.trans (congrArg _ htext)⟩

end Pcode.Convert
