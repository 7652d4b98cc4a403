import ClassHooks.Proofs.Code.Attribute
import ClassHooks.Proofs.Pool.Codec
import ClassHooks.ClassFile

/-!
Class files as bytes, both ways. Reading leaves nothing out and changes nothing, so what it accepts
is written back byte for byte; and what is written is read back, provided the pool is one that
reading could have built.
-/
namespace ClassHooks

open Reader

namespace Member

abbrev WrittenAs (m : Member) (bs : Bytes) : Prop := m.write = .ok bs

theorem writtenAs_iff {m : Member} {bs : Bytes} : m.WrittenAs bs ↔
    ∃ attributes, Attribute.writeAll m.attributes = .ok attributes ∧
      bs = Bytes.u16 m.flags ++ (Bytes.u16 m.name ++ (Bytes.u16 m.descriptor ++ attributes)) := by
  unfold WrittenAs write
  simp only [bind_ok_iff, pure_ok_iff, eq_comm (a := bs)]

theorem takes_read (p : Nat) : TakesAt read p WrittenAs := by
  refine takes_field takes_u16 fun flags => takes_field takes_u16 fun name => ?_
  refine takes_field takes_u16 fun descriptor => ?_
  refine takes_map (takes_mono (Attribute.takes_readAll _) ?_)
  intro attributes bs written
  exact writtenAs_iff.mpr ⟨bs, written, rfl⟩

theorem reads_written {m : Member} {bs : Bytes} (written : m.WrittenAs bs) (p : Nat) :
    ReadsAt read p bs m := by
  obtain ⟨attributes, all, rfl⟩ := writtenAs_iff.mp written
  refine reads_bind (reads_u16 _ _) (reads_bind (reads_u16 _ _) (reads_bind (reads_u16 _ _) ?_))
  exact reads_map _ (Attribute.reads_writtenAll all _)

end Member

namespace ClassFile

theorem write_ok_iff {c : ClassFile} {bs : Bytes} : c.write = .ok bs ↔
    ∃ pool interfaces fields methods attributes, c.pool.write = .ok pool ∧
      Bytes.Tabled (fun i b => b = Bytes.u16 i) c.interfaces interfaces ∧
      Bytes.Tabled Member.WrittenAs c.fields fields ∧ Bytes.Tabled Member.WrittenAs c.methods methods ∧
      Attribute.writeAll c.attributes = .ok attributes ∧
      bs = Bytes.u32 magic ++ (Bytes.u16 c.minor ++ (Bytes.u16 c.major ++ (pool ++ (Bytes.u16 c.flags
        ++ (Bytes.u16 c.thisClass ++ (Bytes.u16 c.superClass ++ (interfaces ++ (fields ++ (methods
        ++ attributes))))))))) := by
  unfold write
  simp only [bind_ok_iff, pure_ok_iff, tabled_iff_flatMap .interfaces c.interfaces,
    tabled_iff_mapM .fields c.fields, tabled_iff_mapM .methods c.methods]
  constructor
  · rintro ⟨pool, written, interfaces, interfaced, fields, counted, fieldParts, fielded, methods,
      counted', methodParts, methoded, attributes, attributed, rfl⟩
    exact ⟨pool, _, _, _, attributes, written, ⟨interfaces, interfaced, rfl⟩,
      ⟨fields, fieldParts, counted, fielded, rfl⟩, ⟨methods, methodParts, counted', methoded, rfl⟩,
      attributed, by simp only [List.append_assoc]⟩
  · rintro ⟨pool, _, _, _, attributes, written, ⟨interfaces, interfaced, rfl⟩,
      ⟨fields, fieldParts, counted, fielded, rfl⟩, ⟨methods, methodParts, counted', methoded, rfl⟩,
      attributed, rfl⟩
    exact ⟨pool, written, interfaces, interfaced, fields, counted, fieldParts, fielded, methods,
      counted', methodParts, methoded, attributes, attributed, by simp only [List.append_assoc]⟩

theorem takes_read (p : Nat) : TakesAt read p fun c bs => c.pool.Built ∧ c.write = .ok bs := by
  refine takes_field takes_u32 fun found => takes_guard fun known => ?_
  obtain rfl : found = magic := not_not.mp known
  refine takes_field takes_u16 fun minor => takes_field takes_u16 fun major => ?_
  refine takes_bind (Pool.takes_read _) fun pool poolBytes ⟨built, poolWritten⟩ => ?_
  refine takes_field takes_u16 fun flags => takes_field takes_u16 fun thisClass => ?_
  refine takes_field takes_u16 fun superClass => ?_
  refine takes_bind (takes_table (fun _ => takes_u16) _) fun interfaces _ interfaced => ?_
  refine takes_bind (takes_table Member.takes_read _) fun fields _ fielded => ?_
  refine takes_bind (takes_table Member.takes_read _) fun methods _ methoded => ?_
  refine takes_bind (Attribute.takes_readAll _) fun attributes _ attributed => takes_atEnd ?_
  refine ⟨built, write_ok_iff.mpr ⟨_, _, _, _, _, poolWritten, interfaced, fielded, methoded,
    attributed, ?_⟩⟩
  rw [List.append_nil]

theorem ends_written {c : ClassFile} {bs : Bytes} (built : c.pool.Built)
    (written : c.write = .ok bs) : EndsAt read 0 bs c := by
  obtain ⟨pool, interfaces, fields, methods, attributes, pooled, interfaced, fielded, methoded,
    attributed, rfl⟩ := write_ok_iff.mp written
  refine ends_bind (reads_u32 _ _) (ends_guard (not_not.mpr rfl) ?_)
  refine ends_bind (reads_u16 _ _) (ends_bind (reads_u16 _ _) ?_)
  refine ends_bind (Pool.reads_written built pooled _) ?_
  refine ends_bind (reads_u16 _ _) (ends_bind (reads_u16 _ _) (ends_bind (reads_u16 _ _) ?_))
  refine ends_bind (reads_tabled interfaced (fun i _ _ same => same ▸ reads_u16 i) _) ?_
  refine ends_bind (reads_tabled fielded (fun _ _ _ => Member.reads_written) _) ?_
  refine ends_bind (reads_tabled methoded (fun _ _ _ => Member.reads_written) _) ?_
  rw [← List.append_nil attributes]
  exact ends_bind (Attribute.reads_writtenAll attributed _) (ends_atEnd _ _)

theorem finishes_read : Finishes read :=
  finishes_bind fun _ => finishes_guard <| finishes_bind fun _ => finishes_bind fun _ =>
    finishes_bind fun _ => finishes_bind fun _ => finishes_bind fun _ => finishes_bind fun _ =>
      finishes_bind fun _ => finishes_bind fun _ => finishes_bind fun _ =>
        finishes_bind fun _ => finishes_atEnd

theorem built_of_parse {bytes : Bytes} {c : ClassFile} (parsed : parse bytes = .ok c) :
    c.pool.Built :=
  (taken_of_run (takes_read 0) finishes_read parsed).1

/-- What is written is read back, if reading could have built the pool. -/
theorem parse_written {c : ClassFile} {bytes : Bytes} (built : c.pool.Built)
    (written : c.write = .ok bytes) : parse bytes = .ok c :=
  run_of_ends (ends_written built written)

/-- A class file that is accepted is written back byte for byte. -/
theorem write_parsed {bytes : Bytes} {c : ClassFile} (parsed : parse bytes = .ok c) :
    c.write = .ok bytes :=
  (taken_of_run (takes_read 0) finishes_read parsed).2

theorem sound_of_parse {bytes : Bytes} {c : ClassFile} (parsed : parse bytes = .ok c) :
    c.pool.Sound := by
  obtain ⟨_, _, _, _, _, written, _⟩ :=
    write_ok_iff.mp (taken_of_run (takes_read 0) finishes_read parsed).2
  exact Pool.sound_of_written (built_of_parse parsed) written

def oddities : Bytes :=
  [0xCA, 0xFE, 0xBA, 0xBE, 0, 0, 0, 52, 0, 8,
    1, 0, 1, 0x41, 7, 0, 1, 5, 0, 0, 0, 0, 0, 0, 0, 7, 1, 0, 1, 0xFF, 1, 0, 1, 0xFF, 7, 0, 6,
    0xFF, 0xFF, 0, 2, 0, 0, 0, 1, 0, 7,
    0, 1, 0xF0, 0x0F, 0, 1, 0, 5, 0, 1, 0, 6, 0, 0, 0, 3, 1, 2, 3,
    0, 1, 0, 0, 0, 5, 0, 6, 0, 0, 0, 1, 0, 1, 0, 0, 0, 0]

theorem oddities_written :
    ∃ c, parse oddities = .ok c ∧ c.write = .ok oddities := by
  have accepted : (parse oddities).toOption.isSome = true := by decide +kernel
  obtain ⟨c, parsed⟩ := ok_of_isSome accepted
  exact ⟨c, parsed, write_parsed parsed⟩

end ClassFile
end ClassHooks
