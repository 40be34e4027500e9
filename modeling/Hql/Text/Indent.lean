/-!
The unit of indentation of generated and formatted text.
-/

namespace Hql.Text

/-- One level of indentation. -/
def tab : String := "    "

end Hql.Text
