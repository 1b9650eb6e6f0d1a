import KernelForge.Proofs.Store.Directory
import KernelForge.Proofs.Text.Hex
import KernelForge.Session.Role

/-!
# The names of the files of a store

The index, its lock, the temporary file and the kernel files have plain names, none of which is
another one's. The name of a kernel file tells the hash of the kernel.
-/
namespace KernelForge

/-! ## Hashes as text -/

namespace ContentHash

theorem length_text (h : ContentHash) : h.text.toList.length = 16 := by
  rw [text, String.toList_ofList, Text.Hex.length_fixed]

theorem text_injective {h h' : ContentHash} (heq : h.text = h'.text) : h = h' := by
  have hdigits := String.ofList_injective heq
  have hvalue := Text.Hex.fixed_injective h.value.toNat_lt h'.value.toNat_lt hdigits
  cases h
  cases h'
  exact congrArg ContentHash.mk (UInt64.toNat_inj.mp hvalue)

end ContentHash

theorem utf8ByteSize_ofList {cs : List Char} (h : ∀ c ∈ cs, c.utf8Size = 1) :
    (String.ofList cs).utf8ByteSize = cs.length := by
  induction cs with
  | nil => rfl
  | cons c rest ih =>
    have hcons : String.ofList (c :: rest) = String.singleton c ++ String.ofList rest := by
      rw [← String.toList_inj]
      simp
    rw [hcons, String.utf8ByteSize_append, String.utf8ByteSize_singleton, h c (by simp),
      ih fun d hd => h d (by simp [hd]), List.length_cons]
    omega

/-- A character that may stand in a plain name, of one byte. -/
def PlainChar (c : Char) : Prop := c ≠ '/' ∧ c ≠ '\x00' ∧ c.utf8Size = 1

instance (c : Char) : Decidable (PlainChar c) := inferInstanceAs (Decidable (_ ∧ _ ∧ _))

theorem plainChars_of_all {cs : List Char} (h : cs.all (fun c => decide (PlainChar c)) = true) :
    ∀ c ∈ cs, PlainChar c := by
  simpa using h

theorem utf8ByteSize_of_plain {name : String} (h : ∀ c ∈ name.toList, PlainChar c) :
    name.utf8ByteSize = name.toList.length := by
  have hsize := utf8ByteSize_ofList fun c hc => (h c hc).2.2
  rwa [String.ofList_toList] at hsize

theorem PlainName.of_chars {name : String} (h : ∀ c ∈ name.toList, PlainChar c)
    (hlong : 2 < name.toList.length) (hshort : name.toList.length ≤ FileTree.longestName) :
    PlainName name := by
  refine ⟨fun hc => (h _ hc).1 rfl, fun hc => (h _ hc).2.1 rfl, ?_, ?_, ?_, ?_⟩
  · rintro rfl
    simp at hlong
  · rintro rfl
    simp at hlong
  · rintro rfl
    simp at hlong
  · rw [utf8ByteSize_of_plain h]
    exact hshort

namespace Path

theorem utf8ByteSize_join_le (dir name : Path) :
    (dir.join name).utf8ByteSize ≤ dir.utf8ByteSize + 1 + name.utf8ByteSize := by
  have hslash : "/".utf8ByteSize = 1 := rfl
  unfold join
  split_ifs
  · omega
  · rw [String.utf8ByteSize_append]
    omega
  · rw [String.utf8ByteSize_append, String.utf8ByteSize_append, hslash]

end Path

/-! ## The files of a store -/

namespace StoreConfig

def indexFile : String := "index.bin"

def lockFile : String := "index.bin.lock"

/-- The temporary file, as long as there is no other one. -/
def tempFile : String := ".tmp0"

def kernelFile (role : Role) (hash : ContentHash) : String := (ofDir "").fileName role.name hash

/-- The most bytes that the name of a file has. -/
def longestFile : Nat := 41

theorem toList_kernelFile (role : Role) (hash : ContentHash) :
    (kernelFile role hash).toList =
      ("ttedsl_kernel_".toList ++ role.name.toList ++ ['_']) ++
        (Text.Hex.fixed 16 hash.value.toNat ++ ".cpp".toList) := by
  simp [kernelFile, fileName, ofDir, ContentHash.text]

/-- The name of a kernel file tells the role and the hash, whatever stands in front and behind. -/
theorem fileName_injective {c : StoreConfig} {role role' : String} {h h' : ContentHash}
    (heq : c.fileName role h = c.fileName role' h') : role = role' ∧ h = h' := by
  have hlist := congrArg String.toList heq
  simp only [fileName, String.toList_append, List.append_cancel_right_eq] at hlist
  -- the hash ends both names, in the same number of places
  obtain ⟨hfront, htext⟩ :=
    List.append_inj' hlist (by rw [ContentHash.length_text, ContentHash.length_text])
  rw [List.append_cancel_right_eq, List.append_cancel_left_eq] at hfront
  exact ⟨String.toList_inj.mp hfront, ContentHash.text_injective (String.toList_inj.mp htext)⟩

/-- Two kernels of one file name have one hash. -/
theorem kernelFile_injective {role role' : Role} {hash hash' : ContentHash}
    (h : kernelFile role hash = kernelFile role' hash') : hash = hash' :=
  (fileName_injective h).2

theorem plainChar_kernelFile (role : Role) (hash : ContentHash) :
    ∀ c ∈ (kernelFile role hash).toList, PlainChar c := by
  intro c hc
  rw [toList_kernelFile] at hc
  rcases List.mem_append.mp hc with hc | hc
  · have hfront : ∀ c ∈ "ttedsl_kernel_".toList ++ role.name.toList ++ ['_'], PlainChar c :=
      plainChars_of_all (by cases role <;> decide)
    exact hfront c hc
  · rcases List.mem_append.mp hc with hc | hc
    · obtain ⟨d, hd, rfl⟩ := Text.Hex.mem_fixed hc
      exact Text.Hex.digit_plain hd
    · have hback : ∀ c ∈ ".cpp".toList, PlainChar c := plainChars_of_all (by decide)
      exact hback c hc

theorem length_kernelFile (role : Role) (hash : ContentHash) :
    (kernelFile role hash).toList.length = 35 + role.name.toList.length := by
  rw [toList_kernelFile]
  simp [Text.Hex.length_fixed]
  omega

theorem length_role (role : Role) : role.name.toList.length ≤ 6 := by cases role <;> decide

/-- The names of all files of a store are plain and short. -/
inductive IsFile : String → Prop
  | index : IsFile indexFile
  | lock : IsFile lockFile
  | temp : IsFile tempFile
  | kernel (role : Role) (hash : ContentHash) : IsFile (kernelFile role hash)

theorem IsFile.plain {name : String} (h : IsFile name) :
    PlainName name ∧ name.utf8ByteSize ≤ longestFile := by
  have hall : (∀ c ∈ name.toList, PlainChar c) ∧ 2 < name.toList.length ∧
      name.toList.length ≤ longestFile := by
    cases h with
    | kernel role hash =>
      have hlen := length_kernelFile role hash
      have hrole := length_role role
      refine ⟨plainChar_kernelFile role hash, by omega, ?_⟩
      unfold longestFile
      omega
    | _ => exact ⟨plainChars_of_all (by decide), by decide, by decide⟩
  obtain ⟨hchars, hlong, hshort⟩ := hall
  refine ⟨.of_chars hchars hlong (Nat.le_trans hshort (by decide)), ?_⟩
  rw [utf8ByteSize_of_plain hchars]
  exact hshort

theorem IsFile.usable {dir : Path} (hdir : dir.utf8ByteSize + 1 + longestFile ≤ FileTree.longestPath)
    {name : String} (h : IsFile name) : FileTree.Usable dir name := by
  obtain ⟨hplain, hshort⟩ := h.plain
  have hjoin := Path.utf8ByteSize_join_le dir name
  exact ⟨hplain, by omega⟩

theorem kernelFile_ne (role : Role) (hash : ContentHash) :
    kernelFile role hash ≠ indexFile ∧ kernelFile role hash ≠ lockFile ∧
      kernelFile role hash ≠ tempFile := by
  have hlen := length_kernelFile role hash
  have hindex : indexFile.toList.length = 9 := rfl
  have hlock : lockFile.toList.length = 14 := rfl
  have htemp : tempFile.toList.length = 5 := rfl
  refine ⟨?_, ?_, ?_⟩ <;>
  · intro h
    rw [h] at hlen
    omega

end StoreConfig

end KernelForge
