/-
  Computations that write a text and may stop.

  What has been written before a computation stops stays written.
-/
import Mathlib.Data.Option.Basic

namespace Funtrace

/-- What has been written, and the result unless the computation has stopped. -/
structure Written (α : Type) where
  text : String
  result : Option α

namespace Written
variable {α β : Type}

/-- A text is written. -/
def write (s : String) : Written Unit := ⟨s, some ()⟩

/-- Stops if there is no value. -/
def unwrap (o : Option α) : Written α := ⟨"", o⟩

instance : Monad Written where
  pure a := ⟨"", some a⟩
  bind x f := ⟨x.text ++ (x.result.elim "" fun a => (f a).text), x.result.bind fun a => (f a).result⟩

@[simp] theorem text_pure (a : α) : (pure a : Written α).text = "" := rfl
@[simp] theorem result_pure (a : α) : (pure a : Written α).result = some a := rfl
@[simp] theorem text_write (s : String) : (write s).text = s := rfl
@[simp] theorem result_write (s : String) : (write s).result = some () := rfl
@[simp] theorem text_unwrap (o : Option α) : (unwrap o).text = "" := rfl
@[simp] theorem result_unwrap (o : Option α) : (unwrap o).result = o := rfl

@[simp] theorem result_bind (x : Written α) (f : α → Written β) :
    (x >>= f).result = x.result.bind fun a => (f a).result := rfl

theorem text_bind_some {x : Written α} {f : α → Written β} {a : α} (h : x.result = some a) :
    (x >>= f).text = x.text ++ (f a).text := by
  change x.text ++ x.result.elim "" _ = _
  rw [h]
  rfl

theorem text_bind_none {x : Written α} {f : α → Written β} (h : x.result = none) :
    (x >>= f).text = x.text := by
  change x.text ++ x.result.elim "" _ = _
  rw [h]
  exact String.append_empty

@[simp] theorem write_bind (s : String) (f : Unit → Written β) :
    write s >>= f = ⟨s ++ (f ()).text, (f ()).result⟩ := rfl

@[simp] theorem unwrap_none_bind (f : α → Written β) : unwrap none >>= f = ⟨"", none⟩ := rfl

@[simp] theorem unwrap_some_bind (a : α) (f : α → Written β) : unwrap (some a) >>= f = f a := by
  have htext : (unwrap (some a) >>= f).text = (f a).text := by
    rw [text_bind_some rfl, text_unwrap, String.empty_append]
  cases hf : f a with
  | mk text result =>
    rw [hf] at htext
    have hresult : (unwrap (some a) >>= f).result = result := by
      rw [result_bind, result_unwrap, Option.bind_some, hf]
    cases hx : unwrap (some a) >>= f with
    | mk text' result' =>
      rw [hx] at htext hresult
      rw [show text' = text from htext, show result' = result from hresult]

end Written

end Funtrace
