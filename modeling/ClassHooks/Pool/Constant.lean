import ClassHooks.Text.Written

/-!
The constants of a class file. A constant of eight bytes takes two slots of the pool; the slot
after it holds `unusable`, as does slot zero.
-/
namespace ClassHooks

inductive Constant where
  | utf8 (bytes : List UInt8)
  | integer (value : Int32)
  | float (bits : UInt32)
  | long (value : Int64)
  | double (bits : UInt64)
  | classRef (name : UInt16)
  | string (text : UInt16)
  | fieldRef (owner nameAndType : UInt16)
  | methodRef (owner nameAndType : UInt16)
  | interfaceMethodRef (owner nameAndType : UInt16)
  | nameAndType (name descriptor : UInt16)
  | methodHandle (kind : UInt8) (reference : UInt16)
  | methodType (descriptor : UInt16)
  | dynamic (bootstrap nameAndType : UInt16)
  | invokeDynamic (bootstrap nameAndType : UInt16)
  | moduleRef (name : UInt16)
  | packageRef (name : UInt16)
  | unusable
  deriving DecidableEq, Repr, Inhabited

namespace Constant

def isWide : Constant → Bool
  | .long _ | .double _ => true
  | _ => false

def slots (c : Constant) : Nat := if c.isWide then 2 else 1

def key : Constant → List Nat
  | .utf8 bytes => 1 :: bytes.map (·.toNat)
  | .integer value => [3, value.toBitVec.toNat]
  | .float bits => [4, bits.toNat]
  | .long value => [5, value.toBitVec.toNat]
  | .double bits => [6, bits.toNat]
  | .classRef name => [7, name.toNat]
  | .string text => [8, text.toNat]
  | .fieldRef owner nat => [9, owner.toNat, nat.toNat]
  | .methodRef owner nat => [10, owner.toNat, nat.toNat]
  | .interfaceMethodRef owner nat => [11, owner.toNat, nat.toNat]
  | .nameAndType name descriptor => [12, name.toNat, descriptor.toNat]
  | .methodHandle kind reference => [15, kind.toNat, reference.toNat]
  | .methodType descriptor => [16, descriptor.toNat]
  | .dynamic bootstrap nat => [17, bootstrap.toNat, nat.toNat]
  | .invokeDynamic bootstrap nat => [18, bootstrap.toNat, nat.toNat]
  | .moduleRef name => [19, name.toNat]
  | .packageRef name => [20, name.toNat]
  | .unusable => []

theorem key_injective {a b : Constant} (same : a.key = b.key) : a = b := by
  cases a <;> cases b <;> first
    | (injection same with tag; cases tag; done)
    | cases same; done
    | simp only [key, List.cons.injEq, UInt8.toNat_inj, UInt16.toNat_inj, UInt32.toNat_inj,
        UInt64.toNat_inj, BitVec.toNat_inj, Int32.toBitVec_inj, Int64.toBitVec_inj, true_and,
        and_true, List.map_inj_right fun _ _ => UInt8.toNat_inj.mp] at same
      simp only [same]

instance : Ord Constant := ⟨compareOn key⟩

instance : Std.TransOrd Constant := inferInstanceAs (Std.TransCmp (compareOn key))

instance : Std.LawfulEqOrd Constant where
  eq_of_compare same := key_injective (Std.LawfulEqOrd.eq_of_compare same)

def describe : Constant → String
  | .utf8 bytes => Text.applied "Utf8" (Text.listing (bytes.map fun b => toString b.toNat))
  | .integer value => Text.applied "Integer" (toString value.toInt)
  | .float bits => Text.applied "Float" (toString bits.toNat)
  | .long value => Text.applied "Long" (toString value.toInt)
  | .double bits => Text.applied "Double" (toString bits.toNat)
  | .classRef name => Text.applied "Class" (toString name.toNat)
  | .string text => Text.applied "String" (toString text.toNat)
  | .fieldRef owner nat => member "Fieldref" owner nat
  | .methodRef owner nat => member "Methodref" owner nat
  | .interfaceMethodRef owner nat => member "InterfaceMethodref" owner nat
  | .nameAndType name descriptor =>
    Text.labelled "NameAndType"
      [("name", toString name.toNat), ("descriptor", toString descriptor.toNat)]
  | .methodHandle kind reference =>
    Text.labelled "MethodHandle"
      [("kind", toString kind.toNat), ("reference", toString reference.toNat)]
  | .methodType descriptor => Text.applied "MethodType" (toString descriptor.toNat)
  | .dynamic bootstrap nat => bootstrapped "Dynamic" bootstrap nat
  | .invokeDynamic bootstrap nat => bootstrapped "InvokeDynamic" bootstrap nat
  | .moduleRef name => Text.applied "Module" (toString name.toNat)
  | .packageRef name => Text.applied "Package" (toString name.toNat)
  | .unusable => "Unusable"
where
  member (kind : String) (owner nat : UInt16) : String :=
    Text.labelled kind [("class", toString owner.toNat), ("name_and_type", toString nat.toNat)]
  bootstrapped (kind : String) (bootstrap nat : UInt16) : String :=
    Text.labelled kind
      [("bootstrap", toString bootstrap.toNat), ("name_and_type", toString nat.toNat)]

end Constant
end ClassHooks
