import WitnessReplay.Text.Lines

/-!
# The Java harness

The driver calls the program and says so when it returns. The oracle takes the place of the
input provider and hands out the values of a list in order; the line that declares the list is
replaced.
-/

namespace WitnessReplay.Harness.Java

def driver : String := Text.unlines
  ["public class Test \x7b",
   "  public static void main(String[] args) throws Exception \x7b",
   "    Main.main(args);",
   "    System.out.println(\"polywit: Witness Spurious\");",
   "  \x7d",
   "\x7d"]

def oracle : String := Text.unlines
  ["package org.sosy_lab.sv_benchmarks;",
   "",
   "import java.util.Arrays;",
   "import java.util.LinkedList;",
   "import java.util.Queue;",
   "",
   "public final class Verifier \x7b",
   "  static String[] assumptionList = \x7b\x7d;",
   "",
   "  private static final Queue<String> assumptions =",
   "      new LinkedList<String>(Arrays.asList(assumptionList));",
   "",
   "  private Verifier() \x7b\x7d",
   "",
   "  private static String next() \x7b",
   "    if (assumptions.isEmpty()) \x7b",
   "      throw new IllegalStateException(\"polywit: assumption list exhausted\");",
   "    \x7d",
   "    return assumptions.remove();",
   "  \x7d",
   "",
   "  private static String integral(String value) \x7b",
   "    if (value != null && (value.endsWith(\"L\") || value.endsWith(\"l\"))) \x7b",
   "      return value.substring(0, value.length() - 1);",
   "    \x7d",
   "    return value;",
   "  \x7d",
   "",
   "  public static void assume(boolean condition) \x7b",
   "    if (!condition) \x7b",
   "      Runtime.getRuntime().halt(1);",
   "    \x7d",
   "  \x7d",
   "",
   "  public static boolean nondetBoolean() \x7b",
   "    return Boolean.parseBoolean(next());",
   "  \x7d",
   "",
   "  public static byte nondetByte() \x7b",
   "    return Byte.parseByte(integral(next()));",
   "  \x7d",
   "",
   "  public static char nondetChar() \x7b",
   "    String value = next();",
   "    if (value.length() >= 3 && value.startsWith(\"'\") && value.endsWith(\"'\")) \x7b",
   "      return value.charAt(1);",
   "    \x7d",
   "    try \x7b",
   "      return (char) Integer.parseInt(value);",
   "    \x7d catch (NumberFormatException e) \x7b",
   "      return value.charAt(0);",
   "    \x7d",
   "  \x7d",
   "",
   "  public static short nondetShort() \x7b",
   "    return Short.parseShort(integral(next()));",
   "  \x7d",
   "",
   "  public static int nondetInt() \x7b",
   "    return Integer.parseInt(integral(next()));",
   "  \x7d",
   "",
   "  public static long nondetLong() \x7b",
   "    return Long.parseLong(integral(next()));",
   "  \x7d",
   "",
   "  public static float nondetFloat() \x7b",
   "    return Float.parseFloat(next());",
   "  \x7d",
   "",
   "  public static double nondetDouble() \x7b",
   "    return Double.parseDouble(next());",
   "  \x7d",
   "",
   "  public static String nondetString() \x7b",
   "    return next();",
   "  \x7d",
   "\x7d"]

end WitnessReplay.Harness.Java
