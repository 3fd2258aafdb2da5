import StackLang.Proofs.Compile
import StackLang.Proofs.Lowering.Origin
import StackLang.Proofs.Source.Line

/-!
# Results point back at the source

**Theorem (`compile_located`).** Whatever compiling returns can be found in the source. Every
operation of a program is that of a token of the source, at the place of this token, and only its
jump has been added. An error is placed where a token was written, so in the file that was compiled
and on one of its lines. Its full text is the text of the place, a colon and the message of its
diagnostic, and nothing else, whatever the file is called.

The first part and the place of an error are what lowering keeps (`exists_token_of_lower`,
`exists_location_of_lower`). The diagnostic reads its message off the full text again, which is
right because the full text always begins with the place (`CompileError.diagnostic?_of_location?`).
-/

namespace StackLang

/-- The full text of an error that has a place. -/
theorem CompileError.message_of_location? {e : CompileError} {l : Location}
    (h : e.location? = some l) : e.message = l.text ++ ": " ++ e.description := by
  simp only [message, h]

/-- **Results point back at the source.** Every operation of a compiled program comes from a token
of the source, and so does the place of every error. The diagnostic of an error has the same place,
and its message is what follows the place and a colon in the full text. -/
theorem compile_located (o : Options) (file text : String) :
    (∀ p, (compile o file text).result = .ok p → ∀ op ∈ p.operations,
      ∃ t ∈ tokenize file text, t.operation = .ok op.unlink ∧ op.location = t.location) ∧
    ∀ e, (compile o file text).result = .error e →
      ∃ t ∈ tokenize file text, e.location? = some t.location ∧
        t.location.file = file ∧ t.location.row < (Text.lines text.toList).length ∧
        ∃ message, e.diagnostic? = some ⟨file, t.location.row, message⟩ ∧
          e.message = t.location.text ++ ": " ++ message := by
  rw [compile_result]
  refine ⟨fun p hp op hop => ?_, fun e he => ?_⟩
  · obtain ⟨t, ht, hoperation⟩ := exists_token_of_lower hp hop
    exact ⟨t, ht, hoperation, (Token.operation_eq_ok hoperation).2⟩
  · obtain ⟨t, ht, hlocation⟩ := exists_location_of_lower he
    obtain ⟨hfile, hrow⟩ := location_of_mem_tokenize ht
    have hdiagnostic := CompileError.diagnostic?_of_location? hlocation
    rw [hfile] at hdiagnostic
    exact ⟨t, ht, hlocation, hfile, hrow, e.description, hdiagnostic,
      CompileError.message_of_location? hlocation⟩

/-- A file whose name looks like the place of an error. In place, the operations of the first text
come through two macros. In the second text the word that is unknown is in a body. -/
theorem compile_located_colons :
    let o : Options := ⟨.inPlace, none, true⟩
    let file := "a:0: b"
    let text := "macro f 1 if\nend macro g f end\ng end"
    let text' := "macro f\nx end f"
    let p : Program := ⟨#[.pushInt 1 ⟨file, 0⟩, ⟨.ifBlock, none, some 2, ⟨file, 0⟩⟩,
      ⟨.endBlock, none, some 3, ⟨file, 2⟩⟩]⟩
    (compile o file text).result = .ok p ∧
    (∀ op ∈ p.operations,
      ∃ t ∈ tokenize file text, t.operation = .ok op.unlink ∧ op.location = t.location) ∧
    (compile o file text').result = .error (.undefinedWord ⟨file, 1⟩ "x") ∧
    (CompileError.undefinedWord ⟨file, 1⟩ "x").diagnostic? =
      some ⟨file, 1, "undefined word `x`"⟩ ∧
    (CompileError.undefinedWord ⟨file, 1⟩ "x").message = "a:0: b:1: undefined word `x`" ∧
    ∃ t ∈ tokenize file text', t.location = ⟨file, 1⟩ ∧
      t.location.row < (Text.lines text'.toList).length := by
  intro o file text text' p
  have htokens : tokenize file text =
      [⟨⟨file, 0⟩, .identifier "macro"⟩, ⟨⟨file, 0⟩, .identifier "f"⟩, ⟨⟨file, 0⟩, .intLiteral 1⟩,
        ⟨⟨file, 0⟩, .identifier "if"⟩, ⟨⟨file, 1⟩, .identifier "end"⟩,
        ⟨⟨file, 1⟩, .identifier "macro"⟩, ⟨⟨file, 1⟩, .identifier "g"⟩,
        ⟨⟨file, 1⟩, .identifier "f"⟩, ⟨⟨file, 1⟩, .identifier "end"⟩,
        ⟨⟨file, 2⟩, .identifier "g"⟩, ⟨⟨file, 2⟩, .identifier "end"⟩] := by decide +kernel
  have htokens' : tokenize file text' =
      [⟨⟨file, 0⟩, .identifier "macro"⟩, ⟨⟨file, 0⟩, .identifier "f"⟩,
        ⟨⟨file, 1⟩, .identifier "x"⟩, ⟨⟨file, 1⟩, .identifier "end"⟩,
        ⟨⟨file, 1⟩, .identifier "f"⟩] := by decide +kernel
  have hok : (compile o file text).result = .ok p :=
    compile_ok_of_path htokens (.cons (.define rfl rfl rfl rfl rfl)
      (.cons (.define rfl rfl rfl rfl rfl) (.cons (.expand rfl rfl (by decide) nofun)
        (.cons (.expand rfl rfl (by decide) nofun) (.cons (.emit rfl rfl rfl nofun rfl)
          (.cons (.emit rfl rfl rfl nofun rfl) (.cons (.emit rfl rfl rfl nofun rfl)
            (.nil _)))))))) rfl rfl
  have herror : (compile o file text').result = .error (.undefinedWord ⟨file, 1⟩ "x") := by
    have hpath : ∃ mvs s queue, Lowering.Path o (.start (tokenize file text')) mvs s ∧
        s.waiting = ⟨⟨⟨file, 1⟩, .identifier "x"⟩, ["f"]⟩ :: queue ∧
        s.macros.invoked? (.identifier "x") = none := by
      rw [htokens']
      exact ⟨_, _, _, .cons (.define rfl rfl rfl rfl rfl)
        (.cons (.expand rfl rfl (by decide) nofun) (.nil _)), rfl, rfl⟩
    obtain ⟨mvs, s, queue, hpath, hq, hfree⟩ := hpath
    exact compile_error_of_path rfl hpath (Lowering.fails_of_undefined hq hfree rfl rfl)
  obtain ⟨t, ht, hlocation, -, hrow, -⟩ :=
    (compile_located o file text').2 _ herror
  have hplace : t.location = ⟨file, 1⟩ := (Option.some.inj hlocation).symm
  exact ⟨hok, (compile_located o file text).1 p hok, herror, by decide +kernel, by decide +kernel,
    t, ht, hplace, hrow⟩

end StackLang
