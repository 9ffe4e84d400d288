import Concordance.Decimal.Layout
import Concordance.Json.Syntax

/-!
# Floating-point values in JSON

A floating-point value is written as its JSON numeral. JSON has no numeral for a NaN or an infinity:
these become null.
-/

namespace Concordance

def Binary64.toJson (x : Binary64) : Json := (x.numeral?.map Json.number).getD .null

def Single.toJson (x : Float32) : Json := ((Single.numeral? x).map Json.number).getD .null

end Concordance
