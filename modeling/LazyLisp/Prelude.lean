import LazyLisp.Text.Basic

/-!
# The core prelude

The definitions that a session loads unless it is told otherwise.
-/

set_option autoImplicit false

namespace LazyLisp.Prelude

def fileName : Text := "core.cec".toList

def core : Text :=
  "; Definitions loaded into every session unless the prelude is disabled.

(def id (fn [x] x))

(def double (fn [x] (+ x x)))

(def even? (fn [x] (= (% x 2) 0)))

(def odd? (fn [x] (not (even? x))))

(def zero? (fn [x] (= x 0)))
".toList

end LazyLisp.Prelude
