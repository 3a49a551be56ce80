/-
Which keys share an object.

A field is kept under one key for the texts that name it: what a literal stands for, and any
other text as it is.  So two texts give the same object of the scene if and only if they have
the same key there.  For texts that are no literals, and for the literals of strings without
control characters, these are the same texts.  They are not in general: a text that is no
literal shares the object of the literal for it, and a string shares the object of one in
which a control character is written by its escape.
-/
import LuaRecovery.Proofs.Literals
import LuaRecovery.Proofs.SceneRecords

namespace LuaRecovery.Scene

theorem placeKey_of_text {keyText : String} (h : Lua.unquote? keyText = none) :
    placeKey keyText = keyText := by
  rw [placeKey, h]
  rfl

theorem placeKey_quote (x : String) :
    placeKey (Lua.quote x) = String.ofList (x.toList.flatMap Lua.shown) := by
  rw [placeKey, Lua.unquote?_quote]
  rfl

theorem placeKey_quote_of_not_control {x : String} (h : ∀ c ∈ x.toList, ¬ Lua.IsControl c) :
    placeKey (Lua.quote x) = x := by
  rw [placeKey, Lua.unquote?_quote_of_not_control h]
  rfl

variable {s s₁ s₂ s₃ : Scene} {handle : Nat} {k₁ k₂ b₁ b₂ : String} {r₁ r₂ : Reading}

/-- The object of a field has the key of the text, so two texts that give one object have one
key; and a place has one object. -/
theorem InOrder.read_eq_iff (hs : s.InOrder) (hhandle : handle < s.objects.length)
    (h₁ : s.read handle k₁ b₁ = .ok (r₁, s₁)) (hbetween : s₁.Reaches s₂)
    (h₂ : s₂.read handle k₂ b₂ = .ok (r₂, s₃)) :
    r₁.handle = r₂.handle ↔ placeKey k₁ = placeKey k₂ := by
  have hfirst := read_change hhandle h₁
  have hhandle₂ : handle < s₂.objects.length :=
    Nat.lt_of_lt_of_le hhandle (hfirst.extends.trans hbetween.extends).objects.length_le
  have hsecond := read_change hhandle₂ h₂
  have hs₃ : s₃.InOrder := hsecond.inOrder (hbetween.inOrder (hfirst.inOrder hs))
  -- Both places are there in the last scene.
  have hplace₁ : s₃.slots.get? (some handle, placeKey k₁) = some r₁.handle :=
    (hbetween.extends.trans hsecond.extends).slots _ _ (read_place hhandle h₁)
  have hplace₂ : s₃.slots.get? (some handle, placeKey k₂) = some r₂.handle :=
    read_place hhandle₂ h₂
  constructor
  · intro hsame
    obtain ⟨o₁, ho₁, -, hkey₁⟩ := hs₃.placed _ _ _ hplace₁
    obtain ⟨o₂, ho₂, -, hkey₂⟩ := hs₃.placed _ _ _ hplace₂
    rw [hsame, ho₂] at ho₁
    cases ho₁
    exact Option.some.inj (hkey₁.symm.trans hkey₂)
  · intro hkeys
    rw [hkeys, hplace₂] at hplace₁
    exact (Option.some.inj hplace₁).symm

/-- **When two keys share an object.**  In every scene that operations lead to, two reads of an
object, with any operations in between, give the same object exactly if their texts have the
same key.  If neither text is a literal, or both are literals of strings without control
characters, they give it only for the same text. -/
theorem keys_share_iff {names : NameSupply} (hs : (openedOn names).Reaches s)
    (hhandle : handle < s.objects.length) (h₁ : s.read handle k₁ b₁ = .ok (r₁, s₁))
    (hbetween : s₁.Reaches s₂) (h₂ : s₂.read handle k₂ b₂ = .ok (r₂, s₃)) :
    (r₁.handle = r₂.handle ↔ placeKey k₁ = placeKey k₂) ∧
      (Lua.unquote? k₁ = none → Lua.unquote? k₂ = none → (r₁.handle = r₂.handle ↔ k₁ = k₂)) ∧
      ∀ x y, k₁ = Lua.quote x → k₂ = Lua.quote y →
        (r₁.handle = r₂.handle ↔ x.toList.flatMap Lua.shown = y.toList.flatMap Lua.shown) ∧
        ((∀ c ∈ x.toList ++ y.toList, ¬ Lua.IsControl c) → (r₁.handle = r₂.handle ↔ k₁ = k₂)) := by
  have hkeys := (hs.inOrder (openedOn_inOrder names)).read_eq_iff hhandle h₁ hbetween h₂
  refine ⟨hkeys, fun hk₁ hk₂ => ?_, ?_⟩
  · rwa [placeKey_of_text hk₁, placeKey_of_text hk₂] at hkeys
  rintro x y rfl rfl
  refine ⟨?_, fun hplain => ?_⟩
  · rw [hkeys, placeKey_quote, placeKey_quote]
    exact ⟨fun h => String.ofList_injective h, congrArg String.ofList⟩
  · rw [hkeys, placeKey_quote_of_not_control fun c hc => hplain c (List.mem_append_left _ hc),
      placeKey_quote_of_not_control fun c hc => hplain c (List.mem_append_right _ hc)]
    refine ⟨congrArg Lua.quote, fun h => ?_⟩
    have hread := congrArg Lua.unquote? h
    rwa [Lua.unquote?_quote_of_not_control fun c hc => hplain c (List.mem_append_left _ hc),
      Lua.unquote?_quote_of_not_control fun c hc => hplain c (List.mem_append_right _ hc),
      Option.some.injEq] at hread

theorem variables_keep_apart :
    ∃ r₁ s₁ r₂ s₂, (openedOn {}).read rootHandle "i" rootName = .ok (r₁, s₁) ∧
      s₁.read rootHandle "j" rootName = .ok (r₂, s₂) ∧ r₁.handle ≠ r₂.handle := by
  have hopen := (openedOn_inOrder {}).sound
  obtain ⟨r₁, s₁, h₁, hholds⟩ := read_holds hopen Nat.one_pos "i" rootName
  obtain ⟨r₂, s₂, h₂, -⟩ := read_holds hholds.sound
    (Nat.lt_of_lt_of_le Nat.one_pos hholds.grows) "j" rootName
  refine ⟨r₁, s₁, r₂, s₂, h₁, h₂, fun hsame => ?_⟩
  have hkeys := (keys_share_iff .refl Nat.one_pos h₁ .refl h₂).2.1 rfl rfl
  exact absurd (hkeys.mp hsame) (by decide)

/-- Different texts by which the root of a fresh scene gives one object. -/
def ShareObject (k₁ k₂ : String) : Prop :=
  k₁ ≠ k₂ ∧ ∃ r₁ s₁ r₂ s₂, opened.read rootHandle k₁ rootName = .ok (r₁, s₁) ∧
    s₁.read rootHandle k₂ rootName = .ok (r₂, s₂) ∧ r₁.handle = r₂.handle

/-- A variable and the field of its name, a number and the field of its numeral, and a string
with a line break and one with the escape for it are different keys of one object. -/
theorem different_keys_share : ShareObject "i" (Lua.quote "i") ∧ ShareObject "5" (Lua.quote "5") ∧
      ShareObject (Lua.quote "a\nb") (Lua.quote "a\\nb") := by
  refine ⟨⟨by decide, ?_⟩, ⟨by decide, ?_⟩, ⟨by decide, ?_⟩⟩
  all_goals exact ⟨_, _, _, _, rfl, rfl, rfl⟩

end LuaRecovery.Scene
