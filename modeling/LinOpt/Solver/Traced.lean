import LinOpt.Solver.Event

namespace LinOpt

structure Traced (ε α : Type) where
  result : Except ε α
  events : List Event := []
  files : List (String × String) := []

namespace Traced

variable {ε α β : Type}

def of (x : Except ε α) : Traced ε α := { result := x }

def bind (x : Traced ε α) (f : α → Traced ε β) : Traced ε β :=
  match x.result with
  | .error e => ⟨.error e, x.events, x.files⟩
  | .ok a =>
    let y := f a
    ⟨y.result, x.events ++ y.events, x.files ++ y.files⟩

instance : Monad (Traced ε) where
  pure a := of (.ok a)
  bind := bind

instance : MonadExcept ε (Traced ε) where
  throw e := of (.error e)
  tryCatch x handle :=
    match x.result with
    | .ok _ => x
    | .error e =>
      let y := handle e
      ⟨y.result, x.events ++ y.events, x.files ++ y.files⟩

def tell (es : List Event) : Traced ε Unit := { result := .ok (), events := es }

def store (path text : String) : Traced ε Unit := { result := .ok (), files := [(path, text)] }

theorem result_bind (x : Traced ε α) (f : α → Traced ε β) :
    (x >>= f).result = x.result.bind fun a => (f a).result := by
  show (bind x f).result = _
  unfold bind
  cases x.result <;> rfl

end Traced

end LinOpt
