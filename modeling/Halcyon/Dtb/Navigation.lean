import Halcyon.Dtb.Tree

/-! Navigation in an accepted blob gives back the tree its tokens spell. -/

namespace Halcyon.Dtb

section

variable {fdt : Fdt} {name : Text} {data : Bytes} {members : Members} {off pos next stop turns : Nat}

def Members.children : Members → List Nat
  | .nil => []
  | .nop rest => rest.children
  | .prop _ _ rest => rest.children
  | .child off _ _ rest => off :: rest.children

def Members.properties : Members → List (Text × Bytes)
  | .nil => []
  | .nop rest => rest.properties
  | .prop name data rest => (name, data) :: rest.properties
  | .child _ _ _ _ => []

def Members.property (members : Members) (key : Text) : Option Bytes :=
  (members.properties.find? fun entry => entry.1 = key).map Prod.snd

section Props

variable {R : Type} {f : Text → Bytes → Option R}

end Props

namespace Children

end Children

/-- The nodes that navigation reaches: the root, and whatever a call on the children of such a node gives. -/
inductive Reachable (fdt : Fdt) : Node → Prop where
  | root : Reachable fdt fdt.root
  | child {node child : Node} {n : Nat} (parent : Reachable fdt node)
    (given : nthCall Children.next n node.children = .ok (some child)) : Reachable fdt child

/-- A blob with one reservation, a root with these tokens and the string `p`. -/
def blobOf (sizeStruct : Nat) (tokens : List Nat) : Bytes :=
  let offStrings := 72 + 4 * tokens.length
  ([fdtMagic, offStrings + 4, 72, offStrings, 40, 17, 16, 0, 2, sizeStruct] ++ [0, 0x80000000, 0, 0x1000, 0, 0, 0, 0] ++
    tokens ++ [0x70000000]).flatMap fun word => (littleBytes 4 word).reverse

end

/-!
What the validator does not check. Tokens are read to the end of the blob, not to the end of the structure
block, and members are counted in any order.
-/

section

namespace Members

def hasProperty : Members → Bool
  | .nil => false
  | .nop rest => rest.hasProperty
  | .prop _ _ _ => true
  | .child _ _ _ rest => rest.hasProperty

/-- In this node and in every node below it, properties come before children. -/
def ordered : Members → Bool
  | .nil => true
  | .nop rest => rest.ordered
  | .prop _ _ rest => rest.ordered
  | .child _ _ inside rest => inside.ordered && !rest.hasProperty && rest.ordered

end Members

/-- The token stream ends inside the structure block and follows the grammar of device trees. -/
def Enforced (fdt : Fdt) : Prop :=
  ∃ name members last, Document fdt name members last ∧ last ≤ fdt.dtStruct.stop ∧ members.ordered = true

/-- Whatever tree stands where the header says, up to wherever it ends, it ends inside the structure block and
its properties come before its children. -/
def KeepsToBlock (bytes : Bytes) : Prop :=
  ∀ fdt name members last, Fdt.view bytes = .ok fdt → Document fdt name members last →
    last ≤ fdt.dtStruct.stop ∧ members.ordered = true

/-- The validator makes neither check: what it accepts is enforced exactly when the blob keeps to its block by itself. -/
theorem new_enforces_iff (bytes : Bytes) : (∀ fdt, Fdt.new bytes = .ok fdt → Enforced fdt) ↔ KeepsToBlock bytes := by
  constructor
  · intro enforced fdt name members last viewed document
    obtain ⟨name', members', last', document', inside, ordered⟩ :=
      enforced fdt (Fdt.new_ok_iff.mpr ⟨viewed, name, members, last, document⟩)
    obtain ⟨rfl, rfl, rfl⟩ := document.unique document'
    exact ⟨inside, ordered⟩
  · intro keeps fdt accepted
    obtain ⟨viewed, name, members, last, document⟩ := Fdt.new_ok_iff.mp accepted
    obtain ⟨inside, ordered⟩ := keeps fdt name members last viewed document
    exact ⟨name, members, last, document, inside, ordered⟩

/-- The root of a blob whose structure block is said to be four bytes long. -/
def crampedBlob : Bytes := blobOf 4 [1, 0, 2, 9]

def lateBlob : Bytes := blobOf 44 [1, 0, 1, 0x61000000, 2, 3, 4, 0, 0x01020304, 2, 9]

def crampedFdt : Fdt := ⟨crampedBlob, 92, ⟨40, 56⟩, ⟨72, 76⟩, ⟨88, 90⟩⟩

def lateFdt : Fdt := ⟨lateBlob, 120, ⟨40, 56⟩, ⟨72, 116⟩, ⟨116, 118⟩⟩

/-- The same root in a structure block of its size. -/
def tidyBlob : Bytes := blobOf 16 [1, 0, 2, 9]

def tidyFdt : Fdt := ⟨tidyBlob, 92, ⟨40, 56⟩, ⟨72, 88⟩, ⟨88, 90⟩⟩

theorem root_document {fdt : Fdt} (starts : fdt.dtStruct.start = 72) (begins : Reads fdt 72 (.beginNode []) 80)
    (ends : Reads fdt 80 .endNode 84) (finished : Reads fdt 84 .fdtEnd 88) : Document fdt [] .nil 88 :=
  ⟨84, starts ▸ ⟨80, begins, .nil ends⟩, .fdtEnd finished⟩

theorem crampedBlob_document : Document crampedFdt [] .nil 88 := by
  refine root_document rfl ?_ ?_ ?_ <;> (unfold Reads; decide +kernel)

theorem tidyBlob_document : Document tidyFdt [] .nil 88 := by
  refine root_document rfl ?_ ?_ ?_ <;> (unfold Reads; decide +kernel)

theorem new_enforces_iff_tidy : Fdt.new tidyBlob = .ok tidyFdt ∧ Enforced tidyFdt := by
  have accepted : Fdt.new tidyBlob = .ok tidyFdt := by decide +kernel
  refine ⟨accepted, (new_enforces_iff tidyBlob).mpr ?_ tidyFdt accepted⟩
  intro fdt name members last viewed document
  cases viewed.symm.trans (Fdt.new_ok_iff.mp accepted).1
  obtain ⟨rfl, rfl, rfl⟩ := document.unique tidyBlob_document
  exact ⟨by decide, rfl⟩

def lateMembers : Members := .child 80 ['a'] .nil (.prop ['p'] [1, 2, 3, 4] .nil)

theorem lateBlob_document : Document lateFdt [] lateMembers 116 := by
  have begins : Reads lateFdt 72 (.beginNode []) 80 := by
    unfold Reads
    decide +kernel
  have child : Reads lateFdt 80 (.beginNode ['a']) 88 := by
    unfold Reads
    decide +kernel
  have childEnds : Reads lateFdt 88 .endNode 92 := by
    unfold Reads
    decide +kernel
  have property : Reads lateFdt 92 (.prop ['p'] [1, 2, 3, 4]) 108 := by
    unfold Reads
    decide +kernel
  have ends : Reads lateFdt 108 .endNode 112 := by
    unfold Reads
    decide +kernel
  have finished : Reads lateFdt 112 .fdtEnd 116 := by
    unfold Reads
    decide +kernel
  exact ⟨112, ⟨80, begins, .child child (.nil childEnds) (.prop property (.nil ends))⟩, .fdtEnd finished⟩

/-- Both blobs are accepted: the tokens of one run past its structure block, and the other has a property that no
access finds. -/
theorem new_accepts_unenforced : (Fdt.new crampedBlob = .ok crampedFdt ∧ ¬Enforced crampedFdt) ∧
      Fdt.new lateBlob = .ok lateFdt ∧ ¬Enforced lateFdt ∧ lateFdt.root.prop ['p'] = .ok none := by
  refine ⟨⟨by decide +kernel, ?_⟩, by decide +kernel, ?_, by decide +kernel⟩
  · rintro ⟨name, members, last, document, inside, -⟩
    obtain ⟨-, -, rfl⟩ := crampedBlob_document.unique document
    exact absurd inside (by decide)
  · rintro ⟨name, members, last, document, -, ordered⟩
    obtain ⟨-, rfl, -⟩ := lateBlob_document.unique document
    exact absurd ordered (by decide)

end

end Halcyon.Dtb
